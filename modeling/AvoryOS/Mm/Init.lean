import AvoryOS.Mm.Conservation

/-!
# Boot

The memory map of the boot loader says which memory is usable.  `pmm_init` puts its own tables
at the start of the first entry that is large enough, and seeds the zones with the largest
aligned blocks that fit into the rest, entry by entry; memory below 1 MiB is left out.

The boot loader promises that usable entries are made of whole frames and do not overlap.
-/

namespace AvoryOS.Mm

open List Nat

/-- The types of entries that `pmm_init` tells apart. -/
inductive MemType
  | usable
  | bootloaderReclaimable
  | other
deriving DecidableEq

structure Entry where
  base : ℕ
  length : ℕ
  type : MemType

/-- The entries whose frames can come to the zones. -/
def managedEntries (entries : List Entry) : List Entry :=
  entries.filter fun e => decide (e.type ≠ .other)

/-- `pmm_lowest_page`. -/
def lowestPage (entries : List Entry) : ℕ :=
  ((managedEntries entries).map fun e => e.base / pageSize).foldr min (2 ^ 64 - 1)

/-- `pmm_highest_page`. -/
def highestPage (entries : List Entry) : ℕ :=
  ((managedEntries entries).map fun e =>
    (e.base + e.length + pageSize - 1) / pageSize).foldr max 0

/-- `total_metadata_size`: two bitmaps and the counts. -/
def metadataSize (entries : List Entry) : ℕ :=
  let pageCount := highestPage entries - lowestPage entries
  let bitmapSize := pageCount / 8 + if pageCount % 8 ≠ 0 then 1 else 0
  (bitmapSize * 2 + pageCount * 2 + pageSize - 1) / pageSize * pageSize

def metadataBase (entries : List Entry) : Option ℕ :=
  (entries.find? fun e => decide (e.type = .usable ∧ metadataSize entries ≤ e.length)).map
    Entry.base

section

variable (m : Machine) (numa : Numa)

/-- The largest order of a block at `p` of the entry; `n` orders remain. -/
def blockOrder (length p phys tables size : ℕ) : ℕ → ℕ → ℕ
  | 0, order => order
  | n + 1, order =>
    let next := 2 ^ (order + 1) * pageSize
    if length < p + next ∨ phys % next ≠ 0 ∨ ¬(phys + next ≤ tables ∨ tables + size ≤ phys) then
      order
    else blockOrder length p phys tables size n (order + 1)

/-- The loop over an entry; every round moves on, so `length` rounds are enough. -/
def seedEntry (base length tables size : ℕ) : ℕ → ℕ → Pmm → Pmm
  | 0, _, s => s
  | n + 1, p, s =>
    let phys := base + p
    if length ≤ p then s
    else if phys < 0x100000 then seedEntry base length tables size n (p + (0x100000 - phys)) s
    else if tables ≤ phys ∧ phys < tables + size then
      seedEntry base length tables size n (p + (tables + size - phys)) s
    else
      let order := blockOrder length p phys tables size (maxOrder - 1) 0
      seedEntry base length tables size n (p + 2 ^ order * pageSize)
        (seedBlock m s (numa.getNode (numa.physToNode phys)) phys order)

def seedEntries (tables size : ℕ) (entries : List Entry) (s : Pmm) : Pmm :=
  entries.foldl (fun s e =>
    if e.type = .usable then seedEntry m numa e.base e.length tables size e.length 0 s else s) s

/-- The nodes to fall back to in `pmm_alloc_pages_nodemask`. -/
def allocFallback (node order : ℕ) : List ℕ → Pmm → Option ℕ × Pmm
  | [], s => (none, s)
  | alt :: rest, s =>
    if alt = node ∨ numa.online alt = false then allocFallback node order rest s
    else
      match allocInternal m s alt order with
      | (none, s) => allocFallback node order rest s
      | r => r

/-- `pmm_alloc_pages_node`. -/
def allocPagesNode (s : Pmm) (count node : ℕ) : Option ℕ × Pmm :=
  if count = 0 then (none, s)
  else
    let node := numa.getNode node
    match allocInternal m s node (getOrder count) with
    | (none, s) => allocFallback m numa node (getOrder count) (numa.fallbackOrder node) s
    | r => r

/-- The shared zero page: it is zeroed and pinned. -/
def pinZeroPage (s : Pmm) : Caches :=
  match allocPagesNode m numa s 1 0 with
  | (none, s) => ⟨s, fun _ => [], fun _ => [], false, 0⟩
  | (some a, s) =>
    (zeroFrame ⟨s, fun _ => [], fun _ => [], false, a⟩ a).setRef a pinned

/-- `pmm_init`; without room for its tables it halts. -/
def pmmInit (entries : List Entry) (s : Pmm) : Option Caches :=
  (metadataBase entries).map fun tables =>
    pinZeroPage m numa (seedEntries m numa tables (metadataSize entries) entries (boot s))

end

/-! ## What the boot loader promises -/

/-- Usable entries consist of whole frames and do not overlap. -/
structure WholeFrames (entries : List Entry) : Prop where
  whole : ∀ e ∈ entries, e.type = .usable → pageSize ∣ e.base ∧ pageSize ∣ e.length
  apart : entries.Pairwise fun e e' => e.type = .usable → e'.type = .usable →
    e.base + e.length ≤ e'.base ∨ e'.base + e'.length ≤ e.base

/-- The frames that boot knows lie between those bounds. -/
structure Spans (m : Machine) (entries : List Entry) : Prop where
  lowest : m.lowest = lowestPage entries
  highest : m.highest = highestPage entries

variable {l : List ℕ}

theorem foldr_min_le {d x : ℕ} (hx : x ∈ l) : l.foldr min d ≤ x := by
  induction l with
  | nil => cases hx
  | cons y l ih =>
    rcases mem_cons.mp hx with rfl | hx
    · exact min_le_left _ _
    · exact (min_le_right _ _).trans (ih hx)

theorem le_foldr_max {d x : ℕ} (hx : x ∈ l) : x ≤ l.foldr max d := by
  induction l with
  | nil => cases hx
  | cons y l ih =>
    rcases mem_cons.mp hx with rfl | hx
    · exact le_max_left _ _
    · exact (ih hx).trans (le_max_right _ _)

variable {entries : List Entry}

theorem Spans.inRange {m : Machine} {e : Entry} {q : ℕ}
    (h : Spans m entries) (he : e ∈ entries) (ht : e.type = .usable)
    (h1 : e.base ≤ q * pageSize) (h2 : q * pageSize < e.base + e.length) :
    m.lowest ≤ q ∧ q < m.highest := by
  have hmem : e ∈ managedEntries entries := mem_filter.mpr ⟨he, by rw [ht]; decide⟩
  refine ⟨?_, ?_⟩
  · rw [h.lowest]
    refine (foldr_min_le (mem_map_of_mem hmem)).trans ?_
    exact Nat.div_le_of_le_mul (by rw [mul_comm]; exact h1)
  rw [h.highest]
  refine lt_of_lt_of_le ?_ (le_foldr_max (mem_map_of_mem hmem))
  rw [lt_iff_add_one_le, le_div_iff_mul_le pageSize_pos, succ_mul]
  omega

/-! ## Seeding -/

variable {m : Machine} {numa : Numa} {s : Pmm} {R : ℕ → Prop} {p k : ℕ}

/-- What was seeded is free, and lies in `R`. -/
def Seeded (m : Machine) (s : Pmm) (R : ℕ → Prop) : Prop :=
  (∃ L, FreeLists m s L ∅) ∧ ∀ q, s.managed q = true → s.bitmap q = false ∧ s.refcounts q = 0 ∧ R q

theorem Seeded.block (h : Seeded m s R) (hs : Seedable m s p k) (hR : ∀ q ∈ frames p k, R q)
    (z : ℕ) : Seeded m (seedBlock m s z (p * pageSize) k) R := by
  obtain ⟨⟨L, hL⟩, hall⟩ := h
  obtain ⟨hnew, hseeds⟩ := seedBlock_spec hL hs z
  refine ⟨⟨_, hnew⟩, fun q hq => ?_⟩
  rw [hseeds.managed] at hq
  rw [hseeds.bitmap, hseeds.refcounts]
  by_cases hin : p ≤ q ∧ q < p + 2 ^ k
  · simp only [hin, if_true, true_and]
    exact hR q hin
  · simp only [hin] at hq ⊢
    exact hall q hq

theorem blockOrder_spec (tables size : ℕ) {length phys n order : ℕ} (hn : order + n < maxOrder)
    (hfit : p + 2 ^ order * pageSize ≤ length) (hal : 2 ^ order * pageSize ∣ phys) :
    let k := blockOrder length p phys tables size n order
    k < maxOrder ∧ p + 2 ^ k * pageSize ≤ length ∧ 2 ^ k * pageSize ∣ phys := by
  induction n generalizing order with
  | zero => exact ⟨hn, hfit, hal⟩
  | succ n ih =>
    rw [blockOrder]
    split
    · exact ⟨by omega, hfit, hal⟩
    rename_i hno
    simp only [not_or, not_lt, not_not] at hno
    exact ih (by omega) hno.1 (dvd_of_mod_eq_zero hno.2.1)

/-- The usable frames above 1 MiB that lie in `[lo, hi)`. -/
def Above (lo hi q : ℕ) : Prop := 0x100000 ≤ q * pageSize ∧ lo ≤ q * pageSize ∧ q * pageSize < hi

theorem seedEntry_spec {base length tables size n : ℕ}
    (hbase : pageSize ∣ base) (hlen : pageSize ∣ length) (htab : pageSize ∣ tables)
    (hsize : pageSize ∣ size) (hp : pageSize ∣ p)
    (hrange : ∀ q, base ≤ q * pageSize → q * pageSize < base + length →
      m.lowest ≤ q ∧ q < m.highest) (hR : ∀ q, Above base (base + length) q → R q)
    (h : Seeded m s R) (hfresh : ∀ q, Above (base + p) (base + length) q → s.managed q = false) :
    Seeded m (seedEntry m numa base length tables size n p s) R := by
  induction n generalizing p s with
  | zero => exact h
  | succ n ih =>
    have hmib : pageSize ∣ 0x100000 := by decide
    rw [seedEntry]
    split
    · exact h
    split
    · exact ih (Nat.dvd_add hp (dvd_sub hmib (Nat.dvd_add hbase hp))) h fun q hq =>
        hfresh q ⟨hq.1, by have := hq.2.1; omega, hq.2.2⟩
    split
    · exact ih (Nat.dvd_add hp (dvd_sub (Nat.dvd_add htab hsize) (Nat.dvd_add hbase hp))) h
        fun q hq => hfresh q ⟨hq.1, by have := hq.2.1; omega, hq.2.2⟩
    -- a block starts here
    have hone : p + 2 ^ 0 * pageSize ≤ length := by
      have := le_of_dvd (by omega) (dvd_sub hlen hp)
      omega
    obtain ⟨f, hf⟩ := Nat.dvd_add hbase hp
    have hphys : base + p = f * pageSize := by rw [hf, mul_comm]
    have hdvd : 2 ^ 0 * pageSize ∣ base + p := ⟨f, by rw [hf, pow_zero, one_mul]⟩
    obtain ⟨hk, hfit, hal⟩ := blockOrder_spec tables size (n := maxOrder - 1) (by decide) hone hdvd
    generalize blockOrder length p (base + p) tables size (maxOrder - 1) 0 = k at hk hfit hal
    rw [hphys] at hal hfresh ⊢
    have habove : ∀ q ∈ frames f k, Above (f * pageSize) (base + length) q := by
      rintro q ⟨h1, h2⟩
      have h3 := mul_le_mul_right pageSize h1
      have h4 := Nat.mul_lt_mul_of_pos_right h2 pageSize_pos
      rw [add_mul] at h4
      exact ⟨by omega, h3, by omega⟩
    have hs : Seedable m s f k := by
      refine ⟨hk, Nat.dvd_of_mul_dvd_mul_right pageSize_pos hal, fun q hq => ?_⟩
      have := habove q hq
      exact ⟨hrange q (by have := this.2.1; omega) this.2.2, hfresh q this⟩
    refine ih (Nat.dvd_add hp (dvd_mul_left _ _)) (h.block hs (fun q hq => hR q ?_) _)
      fun q hq => ?_
    · have := habove q hq
      exact ⟨this.1, by have := this.2.1; omega, this.2.2⟩
    obtain ⟨⟨L, hL⟩, -⟩ := h
    have hout : ¬(f ≤ q ∧ q < f + 2 ^ k) := fun hin => by
      have h1 := Nat.mul_lt_mul_of_pos_right hin.2 pageSize_pos
      have h2 := hq.2.1
      rw [add_mul] at h1
      omega
    rw [(seedBlock_spec hL hs _).2.managed]
    simp only [hout]
    exact hfresh q ⟨hq.1, by have := hq.2.1; omega, hq.2.2⟩

theorem seedEntries_spec (numa : Numa) {tables size : ℕ} (hw : WholeFrames entries)
    (hrange : ∀ e ∈ entries, e.type = .usable → ∀ q, e.base ≤ q * pageSize →
      q * pageSize < e.base + e.length → m.lowest ≤ q ∧ q < m.highest)
    (htab : pageSize ∣ tables) (hsize : pageSize ∣ size) (h : Seeded m s R)
    (hfresh : ∀ e ∈ entries, e.type = .usable → ∀ q, Above e.base (e.base + e.length) q → ¬R q) :
    Seeded m (seedEntries m numa tables size entries s) fun q =>
      R q ∨ ∃ e ∈ entries, e.type = .usable ∧ Above e.base (e.base + e.length) q := by
  induction entries generalizing s R with
  | nil => exact ⟨h.1, fun q hq => (h.2 q hq).imp_right (.imp_right .inl)⟩
  | cons e entries ih =>
    obtain ⟨hap, hrest⟩ := pairwise_cons.mp hw.apart
    have hw' : WholeFrames entries := ⟨fun e' he' => hw.whole e' (mem_cons_of_mem _ he'), hrest⟩
    rw [seedEntries, foldl_cons]
    by_cases ht : e.type = .usable
    swap
    · rw [if_neg ht]
      have hall := ih hw' (fun e' he' => hrange e' (mem_cons_of_mem _ he')) h
        fun e' he' => hfresh e' (mem_cons_of_mem _ he')
      refine ⟨hall.1, fun q hq => (hall.2 q hq).imp_right (.imp_right ?_)⟩
      rintro (hR | ⟨e', he', hin⟩)
      · exact .inl hR
      · exact .inr ⟨e', mem_cons_of_mem _ he', hin⟩
    obtain ⟨hb, hl⟩ := hw.whole e mem_cons_self ht
    rw [if_pos ht]
    have hone : Seeded m (seedEntry m numa e.base e.length tables size e.length 0 s)
        fun q => R q ∨ Above e.base (e.base + e.length) q := by
      refine seedEntry_spec hb hl htab hsize (Nat.dvd_zero _)
        (hrange e mem_cons_self ht) (fun q hq => .inr hq)
        ⟨h.1, fun q hq => (h.2 q hq).imp_right (.imp_right .inl)⟩ fun q hq => ?_
      by_contra hman
      exact hfresh e mem_cons_self ht q hq (h.2 q (Bool.not_eq_false _ ▸ hman)).2.2
    have hall := ih hw' (fun e' he' => hrange e' (mem_cons_of_mem _ he')) hone
      fun e' he' ht' q hq hR => by
        rcases hR with hR | hin
        · exact hfresh e' (mem_cons_of_mem _ he') ht' q hq hR
        have := hin.2
        have := hq.2
        rcases hap e' he' ht ht' with hle | hle
        · omega
        · omega
    refine ⟨hall.1, fun q hq => (hall.2 q hq).imp_right (.imp_right ?_)⟩
    rintro ((hR | hin) | ⟨e', he', hin⟩)
    · exact .inl hR
    · exact .inr ⟨e, mem_cons_self, ht, hin⟩
    · exact .inr ⟨e', mem_cons_of_mem _ he', hin⟩

/-! ## The zero page -/

variable {st : Caches} {hand : List ℕ}

theorem allocFallback_spec (h : Conserved m st hand) (node k : ℕ) (alts : List ℕ) :
    Hands m st hand k (allocFallback m numa node k alts st.pmm) := by
  induction alts generalizing st with
  | nil => exact ⟨h, .refl st, fun e => absurd e (by simp [allocFallback])⟩
  | cons alt rest ih =>
    rw [allocFallback]
    split
    · exact ih h
    obtain ⟨L, hL⟩ := h.lists
    have hal := h.hands (allocInternal_spec hL alt k).1
    generalize allocInternal m st.pmm alt k = r at hal
    obtain ⟨res, s⟩ := r
    cases res with
    | none => exact hal.trans (ih hal.conserved)
    | some a => exact hal

theorem allocPagesNode_spec (numa : Numa) (h : Conserved m st hand) (count node : ℕ) :
    Hands m st hand (getOrder count) (allocPagesNode m numa st.pmm count node) := by
  rw [allocPagesNode]
  split
  · exact ⟨h, .refl st, fun e => absurd e (by simp)⟩
  obtain ⟨L, hL⟩ := h.lists
  have hal := h.hands (allocInternal_spec hL (numa.getNode node) (getOrder count)).1
  dsimp only
  generalize allocInternal m st.pmm (numa.getNode node) (getOrder count) = r at hal
  obtain ⟨res, s⟩ := r
  cases res with
  | none => exact hal.trans (allocFallback_spec hal.conserved _ _ _)
  | some a => exact hal

def Caches.bare (s : Pmm) (zeroPage : ℕ) : Caches := ⟨s, fun _ => [], fun _ => [], false, zeroPage⟩

theorem Seeded.conserved (h : Seeded m s R) (hR : ∀ q, R q → 0x100000 ≤ q * pageSize) :
    Conserved m (Caches.bare s 0) [] := by
  have hman : ∀ q, isManaged m s q = true → s.managed q = true := fun q hq => by
    simp only [isManaged, Bool.and_eq_true] at hq
    exact hq.2
  refine
    { lists := h.1, once := fun q hq => ?_
      inHand := fun a ha => absurd ha not_mem_nil
      inCache := fun _ a ha => absurd ha not_mem_nil
      inPool := fun _ a ha => absurd ha not_mem_nil
      idle := fun _ _ => ⟨rfl, rfl⟩, pcp_le := fun _ => zero_le _
      zero_le := fun _ => zero_le _, nonnull := ?_ }
  · obtain ⟨hb, hr, -⟩ := h.2 q (hman q hq)
    simp [places, slots, Caches.bare, hb, hr]
  by_contra h0
  have := hR 0 (h.2 0 (hman 0 (Bool.not_eq_false _ ▸ h0))).2.2
  omega

theorem pinZeroPage_spec (h : Conserved m (Caches.bare s 0) []) :
    Conserved m (pinZeroPage m numa s) [] := by
  have hal := allocPagesNode_spec numa h 1 0
  rw [pinZeroPage]
  simp only [Caches.bare] at hal
  generalize allocPagesNode m numa s 1 0 = r at hal
  obtain ⟨res, s'⟩ := r
  cases res with
  | none => exact hal.conserved
  | some a =>
    obtain ⟨p, rfl, hp⟩ := hal.granted rfl
    obtain ⟨hman, -, hone⟩ := hp p (self_mem_frames p _)
    have hz := zeroFrame_spec hal.conserved ((hal.kept.isManaged p).trans hman)
      (by rw [hone]; exact one_ne_zero)
    have := hz.setRef (v := pinned) (by decide)
    exact { this with }

/-- **The state that boot leaves.** -/
theorem pmmInit_conserved (hw : WholeFrames entries)
    (hm : Spans m entries) (ht : Untagged m s) (hi : pmmInit m numa entries s = some st) :
    Conserved m st [] := by
  obtain ⟨tables, htab, rfl⟩ := Option.map_eq_some_iff.mp hi
  obtain ⟨e, he, rfl⟩ := Option.map_eq_some_iff.mp htab
  have hmem := mem_of_find?_eq_some he
  have husable : e.type = .usable := by
    have := find?_some he
    simp only [decide_eq_true_eq] at this
    exact this.1
  have hboot : Seeded m (boot s) fun _ => False :=
    ⟨⟨_, boot_lists ht⟩, fun q hq => absurd hq Bool.false_ne_true⟩
  have hsize : pageSize ∣ metadataSize entries := dvd_mul_left _ _
  have hseed := seedEntries_spec numa hw (fun e he ht q h1 h2 => hm.inRange he ht h1 h2)
    (hw.whole e hmem husable).1 hsize hboot fun _ _ _ _ _ => id
  refine pinZeroPage_spec (hseed.conserved ?_)
  rintro q (hf | ⟨e', -, -, hab⟩)
  · exact absurd hf id
  · exact hab.1

end AvoryOS.Mm
