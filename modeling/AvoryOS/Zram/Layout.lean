import AvoryOS.Zram.Store
import Mathlib.Data.Finset.Card

/-!
# Packed frames

The mask of a packed frame has exactly the objects that no slot has, a frame with a free object
is on the list for its size, and a frame without objects in use is given back.  An object that
is taken from a frame and not yet published, or no longer published and not yet given back, is
held by nobody; `Layout s r` says that the frames are right but for such an object `r`.
-/

namespace AvoryOS.Zram

open Function Option Finset Nat PackedPage Prod

/-! ## Masks -/

variable {pg : PackedPage}

/-- The mask of a frame without objects in use has its objects. -/
theorem PackedPage.all_getLsbD (hb : pg.bin < 32) (i : ℕ) :
    pg.all.getLsbD i = decide (i < pg.objects) := by
  have h : ∀ b < 32, (∀ i < 64, (mk 0 0 b).all.getLsbD i =
      decide (i < (mk 0 0 b).objects)) ∧ (mk 0 0 b).objects ≤ 64 := by
    decide +kernel
  obtain ⟨h1, h2⟩ := h pg.bin hb
  by_cases hi : i < 64
  · exact h1 i hi
  rw [BitVec.getLsbD_of_ge _ _ (by omega)]
  symm
  rw [decide_eq_false_iff_not]
  exact fun h => hi (lt_of_lt_of_le h h2)

theorem getLsbD_clear (m : BitVec 64) (i j : ℕ) :
    (m &&& ~~~(1#64 <<< i)).getLsbD j = (m.getLsbD j && decide (j ≠ i)) := by
  rw [← BitVec.twoPow_eq, BitVec.getLsbD_and, BitVec.getLsbD_not, BitVec.getLsbD_twoPow]
  have := m.getLsbD_of_ge j
  grind

variable {i : ℕ}

theorem getLsbD_set (m : BitVec 64) (hi : i < 64) (j : ℕ) :
    (m ||| (1#64 <<< i)).getLsbD j = (m.getLsbD j || decide (j = i)) := by
  rw [← BitVec.twoPow_eq, BitVec.getLsbD_or, BitVec.getLsbD_twoPow, decide_eq_true hi,
    Bool.true_and]
  simp only [eq_comm]

theorem ctz_spec {m : BitVec 64} (h : m ≠ 0) : m.getLsbD (ctz m) = true := by
  obtain ⟨i, hi⟩ : ∃ i, m.getLsbD i = true := by
    by_contra hn
    refine h (BitVec.eq_of_getLsbD_eq fun i _ => ?_)
    simpa using fun hi => hn ⟨i, hi⟩
  have hlt : i < 64 := BitVec.lt_of_getLsbD hi
  rw [ctz]
  cases hf : (List.range 64).find? m.getLsbD with
  | none => exact absurd hi (List.find?_eq_none.mp hf i (List.mem_range.mpr hlt))
  | some j => exact List.find?_some hf

theorem eq_zero_iff (m : BitVec 64) : m = 0 ↔ ∀ i, m.getLsbD i = false := by
  refine ⟨fun h i => by simp [h], fun h => BitVec.eq_of_getLsbD_eq fun i _ => ?_⟩
  simpa using h i

theorem PackedPage.objects_le : pg.objects ≤ 64 := by
  refine Nat.div_le_of_le_mul ?_
  rw [size]
  omega

theorem PackedPage.object_in (h : i < pg.objects) : i * pg.size + pg.size ≤ 4096 := by
  have h1 : (i + 1) * pg.size ≤ pg.objects * pg.size := mul_le_mul_right _ h
  have h2 : pg.objects * pg.size ≤ 4096 := div_mul_le_self 4096 pg.size
  rw [succ_mul] at h1
  omega

/-! ## Lists of frames -/

section Lists

variable {f : ℕ → List ℕ} {b c p q : ℕ}

theorem mem_update_erase (h : (f b).Nodup) :
    q ∈ update f b ((f b).erase p) c ↔ q ∈ f c ∧ ¬(c = b ∧ q = p) := by
  rw [update_apply]
  split
  · next e => rw [h.mem_erase_iff, e, and_comm, and_iff_right rfl]
  · next e => rw [and_iff_left fun h => e h.1]

theorem mem_update_cons : q ∈ update f b (p :: f b) c ↔ q ∈ f c ∨ c = b ∧ q = p := by
  rw [update_apply]
  split
  · next e => rw [List.mem_cons, e, and_iff_right rfl, or_comm]
  · next e => rw [or_iff_left fun h => e h.1]

theorem nodup_update {l : List ℕ} (h : ∀ c, (f c).Nodup) (hl : l.Nodup) :
    ∀ c, (update f b l c).Nodup :=
  (forall_update_iff f fun _ l => l.Nodup).mpr ⟨hl, fun c _ => h c⟩

end Lists

/-! ## Objects in use -/

/-- The slot `id` has the object `i` of the frame `p`. -/
structure InUse (s : Store) (id p i : ℕ) : Prop where
  live : 0 < (s.slots id).refs
  pool : (s.slots id).pool = some p
  data : ∃ pg, s.pages p = some pg ∧ (s.slots id).data = (pg.frame, i * pg.size) ∧ i < pg.objects

/-- A slot has the object, or it is the one held by nobody. -/
def Taken (s : Store) (r : Option (ℕ × ℕ)) (p i : ℕ) : Prop :=
  (∃ id, InUse s id p i) ∨ r = some (p, i)

variable {s : Store} {p : ℕ}

@[simp] theorem taken_none : Taken s none p i ↔ ∃ id, InUse s id p i :=
  or_iff_left (by simp)

theorem taken_some {t k : ℕ} : Taken s (some (t, k)) p i ↔ Taken s none p i ∨ p = t ∧ i = k := by
  simp [Taken, eq_comm]

theorem taken_other {t k : ℕ} (h : p ≠ t) : Taken s (some (t, k)) p i ↔ Taken s none p i :=
  taken_some.trans (or_iff_left fun e => h e.1)

/-- The frames are right, with the object `r` held by nobody. -/
structure Layout (s : Store) (r : Option (ℕ × ℕ)) : Prop where
  placed : ∀ id p, 0 < (s.slots id).refs → (s.slots id).pool = some p → ∃ i, InUse s id p i
  excl : ∀ id id' p i, InUse s id p i → InUse s id' p i → id = id'
  spare : ∀ p i, r = some (p, i) →
    (∀ id, ¬InUse s id p i) ∧ ∃ pg, s.pages p = some pg ∧ i < pg.objects
  mask : ∀ p pg i, s.pages p = some pg →
    (pg.mask.getLsbD i = true ↔ i < pg.objects ∧ ¬Taken s r p i)
  held : ∀ p pg, s.pages p = some pg → ∃ i, Taken s r p i
  bin : ∀ p pg, s.pages p = some pg → pg.bin < 32
  frame : ∀ p q pg qg, s.pages p = some pg → s.pages q = some qg → pg.frame = qg.frame → p = q
  mem_partials : ∀ p b, p ∈ s.partials b ↔ ∃ pg, s.pages p = some pg ∧ pg.bin = b ∧ pg.mask ≠ 0
  nodup : ∀ b, (s.partials b).Nodup
  memory : ∃ ps : Finset ℕ, (∀ p, p ∈ ps ↔ (s.pages p).isSome) ∧
    s.stats.memoryBytes = tableBytes s.count + packedCharge * ps.card

variable {r : Option (ℕ × ℕ)} {q j : ℕ}

/-- A frame is on the list for its size while it has a free object. -/
theorem Layout.mem_partials_iff (h : Layout s r) (hp : s.pages p = some pg) {b : ℕ} :
    p ∈ s.partials b ↔ pg.bin = b ∧ pg.mask ≠ 0 := by
  simp [h.mem_partials, hp]

theorem Layout.disjoint (h : Layout s r) {qg : PackedPage} (hp : s.pages p = some pg)
    (hq : s.pages q = some qg) (hne : (p, i) ≠ (q, j)) :
    pg.frame ≠ qg.frame ∨ i * pg.size + pg.size ≤ j * qg.size ∨
      j * qg.size + qg.size ≤ i * pg.size := by
  by_cases hpq : p = q
  swap
  · exact .inl fun e => hpq (h.frame p q pg qg hp hq e)
  subst hpq
  obtain rfl : pg = qg := some.inj (hp.symm.trans hq)
  refine .inr ?_
  have hij : i ≠ j := fun e => hne (by rw [e])
  rcases lt_or_gt_of_ne hij with hlt | hlt
  · refine .inl ?_
    rw [← succ_mul]
    exact mul_le_mul_right _ hlt
  · refine .inr ?_
    rw [← succ_mul]
    exact mul_le_mul_right _ hlt

variable {s' : Store}

/-- The frame `p` is where it was, and so are its objects. -/
def Stays (s s' : Store) (p : ℕ) : Prop := ∀ pg, s.pages p = some pg →
  ∃ pg', s'.pages p = some pg' ∧ pg'.frame = pg.frame ∧ pg'.bin = pg.bin

theorem Stays.of_eq (h : s'.pages p = s.pages p) : Stays s s' p :=
  fun pg hp => ⟨pg, h.trans hp, rfl, rfl⟩

/-- Only the frame and the size of an object's page matter. -/
theorem InUse.congr {id : ℕ} (h : InUse s id p i) (hs : s'.slots id = s.slots id)
    (hp : Stays s s' p) : InUse s' id p i := by
  obtain ⟨pg, h1, h2, h3⟩ := h.data
  obtain ⟨pg', hp', hf, hb⟩ := hp pg h1
  refine ⟨hs ▸ h.live, hs ▸ h.pool, pg', hp', ?_, ?_⟩
  · rw [hs, h2, hf, PackedPage.size, PackedPage.size, hb]
  · rw [objects, PackedPage.size, hb]
    exact h3

theorem Stays.remask {m : BitVec 64} (hp : s.pages p = some pg)
    (hpages : s'.pages = update s.pages p (some { pg with mask := m })) (q : ℕ) :
    Stays s s' q := by
  intro qg hq
  rw [hpages, update_apply]
  split
  · next e =>
    subst e
    cases hp.symm.trans hq
    exact ⟨_, rfl, rfl, rfl⟩
  · exact ⟨qg, hq, rfl, rfl⟩

/-! ## A page changes -/

section Repage

variable {r' : Option (ℕ × ℕ)} {m : BitVec 64}

/-- One frame comes, goes or gets another mask, together with the object held by nobody. -/
theorem Layout.repage {o : Option PackedPage} (h : Layout s r) (hs : s'.slots = s.slots)
    (hpages : s'.pages = update s.pages p o) (hobj : ∀ id i, InUse s' id p i ↔ InUse s id p i)
    (hpage : ∀ pg, o = some pg →
      (∀ i, pg.mask.getLsbD i = true ↔ i < pg.objects ∧ ¬Taken s r' p i) ∧
      (∃ i, Taken s r' p i) ∧ pg.bin < 32 ∧
      ∀ q qg, q ≠ p → s.pages q = some qg → qg.frame ≠ pg.frame)
    (hother : ∀ q i, q ≠ p → (Taken s r' q i ↔ Taken s r q i))
    (hspare : ∀ q i, r' = some (q, i) →
      (∀ id, ¬InUse s id q i) ∧ ∃ pg, s'.pages q = some pg ∧ i < pg.objects)
    (hself : ∀ b, p ∈ s'.partials b ↔ ∃ pg, o = some pg ∧ pg.bin = b ∧ pg.mask ≠ 0)
    (hrest : ∀ q b, q ≠ p → (q ∈ s'.partials b ↔ q ∈ s.partials b))
    (hnodup : ∀ b, (s'.partials b).Nodup) (hmem : ∃ ps : Finset ℕ,
      (∀ q, q ∈ ps ↔ (s'.pages q).isSome) ∧
        s'.stats.memoryBytes = tableBytes s'.count + packedCharge * ps.card) : Layout s' r' := by
  have hget : ∀ {q qg}, s'.pages q = some qg →
      q = p ∧ o = some qg ∨ q ≠ p ∧ s.pages q = some qg := by
    intro q qg hq
    rw [hpages, update_apply] at hq
    split at hq
    · next e => exact .inl ⟨e, hq⟩
    · next e => exact .inr ⟨e, hq⟩
  have huse : ∀ {id q i}, InUse s' id q i ↔ InUse s id q i := by
    intro id q i
    by_cases hq : q = p
    · rw [hq]
      exact hobj id i
    have he : s'.pages q = s.pages q := by rw [hpages, update_of_ne hq]
    exact ⟨fun h => h.congr (by rw [hs]) (.of_eq he.symm),
      fun h => h.congr (by rw [hs]) (.of_eq he)⟩
  have htaken : ∀ q i, Taken s' r' q i ↔ Taken s r' q i := by
    intro q i
    simp [Taken, huse]
  refine ⟨?_, ?_, ?_, ?_, ?_, ?_, ?_, ?_, hnodup, hmem⟩
  · intro id q h1 h2
    rw [hs] at h1 h2
    obtain ⟨i, hi⟩ := h.placed id q h1 h2
    exact ⟨i, huse.mpr hi⟩
  · intro id id' q i h1 h2
    exact h.excl id id' q i (huse.mp h1) (huse.mp h2)
  · intro q i hr
    obtain ⟨hn, hpg⟩ := hspare q i hr
    exact ⟨fun id hu => hn id (huse.mp hu), hpg⟩
  · intro q qg i hq
    rw [htaken]
    obtain ⟨rfl, ho⟩ | ⟨hne, hq⟩ := hget hq
    · exact (hpage qg ho).1 i
    · rw [hother q i hne]
      exact h.mask q qg i hq
  · intro q qg hq
    simp only [htaken]
    obtain ⟨rfl, ho⟩ | ⟨hne, hq⟩ := hget hq
    · exact (hpage qg ho).2.1
    · simp only [hother q _ hne]
      exact h.held q qg hq
  · intro q qg hq
    obtain ⟨rfl, ho⟩ | ⟨-, hq⟩ := hget hq
    · exact (hpage qg ho).2.2.1
    · exact h.bin q qg hq
  · intro q q' qg qg' hq hq' he
    obtain ⟨rfl, ho⟩ | ⟨hne, hq⟩ := hget hq <;> obtain ⟨rfl, ho'⟩ | ⟨hne', hq'⟩ := hget hq'
    · rfl
    · exact absurd he.symm ((hpage qg ho).2.2.2 q' qg' hne' hq')
    · exact absurd he ((hpage qg' ho').2.2.2 q qg hne hq)
    · exact h.frame _ _ qg qg' hq hq' he
  · intro q b
    by_cases hq : q = p
    · rw [hq, hself, hpages, update_self]
    · rw [hrest q b hq, h.mem_partials, hpages, update_of_ne hq]

theorem Layout.remask (h : Layout s r) (hs : s'.slots = s.slots) (hc : s'.count = s.count)
    (hmem : s'.stats.memoryBytes = s.stats.memoryBytes) (hp : s.pages p = some pg)
    (hpages : s'.pages = update s.pages p (some { pg with mask := m }))
    (hmask : ∀ i, m.getLsbD i = true ↔ i < pg.objects ∧ ¬Taken s r' p i)
    (hother : ∀ q i, q ≠ p → (Taken s r' q i ↔ Taken s r q i))
    (hspare : ∀ q i, r' = some (q, i) → q = p ∧ i < pg.objects ∧ ∀ id, ¬InUse s id q i)
    (hheld : ∃ i, Taken s r' p i) (hself : ∀ b, p ∈ s'.partials b ↔ pg.bin = b ∧ m ≠ 0)
    (hrest : ∀ q b, q ≠ p → (q ∈ s'.partials b ↔ q ∈ s.partials b))
    (hnodup : ∀ b, (s'.partials b).Nodup) : Layout s' r' := by
  have hnew : s'.pages p = some { pg with mask := m } := by rw [hpages, update_self]
  refine h.repage hs hpages (fun id i => ?_) ?_ hother ?_ ?_ hrest hnodup ?_
  · refine ⟨fun h => h.congr (by rw [hs]) fun qg h1 => ?_,
      fun h => h.congr (by rw [hs]) (.remask hp hpages p)⟩
    cases hnew.symm.trans h1
    exact ⟨pg, hp, rfl, rfl⟩
  · rintro _ ⟨⟩
    exact ⟨hmask, hheld, h.bin p pg hp, fun q qg hne hq e => hne (h.frame q p qg pg hq hp e)⟩
  · intro q i hr
    obtain ⟨rfl, hi, hn⟩ := hspare q i hr
    exact ⟨hn, _, hnew, hi⟩
  · simp [hself]
  obtain ⟨ps, h1, h2⟩ := h.memory
  refine ⟨ps, fun q => ?_, by rw [hmem, hc, h2]⟩
  rw [h1, hpages, update_apply]
  split
  · next e => rw [e, hp]; rfl
  · rfl

end Repage

/-! ## An object is taken -/

/-- The allocators answer with what is not in use. -/
structure Env.Fresh (env : Env) (s : Store) : Prop where
  desc : ∀ p, env.desc = some p → s.pages p = none
  frame : ∀ f p pg, env.frame = some f → s.pages p = some pg → pg.frame ≠ f

/-- What taking and giving back an object does not change. -/
structure Kept (s s' : Store) : Prop where
  slots : s'.slots = s.slots
  count : s'.count = s.count
  freeHead : s'.freeHead = s.freeHead
  mem : s'.mem = s.mem
  storedPages : s'.stats.storedPages = s.stats.storedPages
  compressedBytes : s'.stats.compressedBytes = s.stats.compressedBytes

theorem Kept.intro (s : Store) (pages : ℕ → Option PackedPage) (partials : ℕ → List ℕ) (n : ℕ) :
    Kept s { s with pages, partials, stats := { s.stats with memoryBytes := n } } :=
  ⟨rfl, rfl, rfl, rfl, rfl, rfl⟩

theorem le_bin_size (n : ℕ) : n ≤ ((n + 63) / 64 - 1 + 1) * 64 := by
  omega

theorem packedAlloc_none {n : ℕ} {env : Env} (h : packedAlloc s n env = (none, s')) : s' = s := by
  unfold packedAlloc at h
  dsimp only at h
  split at h
  · split at h
    · exact (mk.inj h).2.symm
    · exact absurd (mk.inj h).1 (by simp)
  split at h
  · exact (mk.inj h).2.symm
  split at h
  · exact absurd (mk.inj h).1 (by simp)
  · exact (mk.inj h).2.symm

section Alloc

variable {n : ℕ}

theorem Layout.allocOld (h : Layout s none) {b : ℕ} {rest : List ℕ}
    (hb : s.partials b = p :: rest) (hp : s.pages p = some pg) : Layout { s with
      pages := update s.pages p (some { pg with mask := pg.mask &&& ~~~(1#64 <<< ctz pg.mask) })
      partials := if pg.mask &&& ~~~(1#64 <<< ctz pg.mask) = 0 then
        update s.partials b ((s.partials b).erase p) else s.partials }
      (some (p, ctz pg.mask)) := by
  obtain ⟨hbin, hne⟩ := (h.mem_partials_iff hp).mp (hb ▸ List.mem_cons_self)
  obtain ⟨hobj, hfree⟩ := (h.mask p pg _ hp).mp (ctz_spec hne)
  refine h.remask rfl rfl rfl hp rfl ?_ (fun q i => taken_other) ?_ ?_ ?_ ?_ ?_
  · intro i
    rw [getLsbD_clear, Bool.and_eq_true, h.mask p pg i hp, taken_some, decide_eq_true_eq]
    tauto
  · intro q i hr
    obtain ⟨rfl, rfl⟩ := mk.inj (some.inj hr)
    exact ⟨rfl, hobj, fun id hu => hfree (.inl ⟨id, hu⟩)⟩
  · exact ⟨ctz pg.mask, .inr rfl⟩
  · intro c
    dsimp only
    split
    · next hz =>
      rw [mem_update_erase (h.nodup b), h.mem_partials_iff hp, hbin]
      tauto
    · next hz => rw [h.mem_partials_iff hp, and_iff_left hne, and_iff_left hz]
  · intro q c hq
    dsimp only
    split
    · exact (mem_update_erase (h.nodup b)).trans (and_iff_left fun h => hq h.2)
    · rfl
  · dsimp only
    split
    · exact nodup_update h.nodup ((h.nodup b).erase p)
    · exact h.nodup

theorem Layout.allocNew (h : Layout s none) (pg : PackedPage) (hb : pg.bin < 32)
    (hp : s.pages p = none) (hf : ∀ q qg, s.pages q = some qg → qg.frame ≠ pg.frame) :
    Layout { s with
      pages := update s.pages p (some { pg with mask := pg.all &&& ~~~1 })
      partials := update s.partials pg.bin (p :: s.partials pg.bin)
      stats := { s.stats with memoryBytes := s.stats.memoryBytes + packedCharge } }
      (some (p, 0)) := by
  -- no slot has an object of a frame that is not there
  have hnone : ∀ id i, ¬InUse s id p i := by
    intro id i hu
    obtain ⟨qg, h1, -⟩ := hu.data
    rw [hp] at h1
    cases h1
  have hobj : 1 < pg.objects := by
    have : ∀ b < 32, 1 < 4096 / ((b + 1) * 64) := by decide
    exact this pg.bin hb
  have hmask : ∀ i, (pg.all &&& ~~~1).getLsbD i = true ↔ i < pg.objects ∧ i ≠ 0 := by
    intro i
    have := getLsbD_clear pg.all 0 i
    rw [show (1#64 <<< 0) = 1 from rfl] at this
    rw [this, all_getLsbD hb, Bool.and_eq_true, decide_eq_true_eq, decide_eq_true_eq]
  have hnz : pg.all &&& ~~~1 ≠ 0 := by
    intro hz
    have := (hmask 1).mpr ⟨hobj, one_ne_zero⟩
    rw [(eq_zero_iff _).mp hz] at this
    cases this
  have hpart : ∀ c, p ∉ s.partials c := by
    intro c hm
    obtain ⟨qg, h1, -⟩ := (h.mem_partials p c).mp hm
    rw [hp] at h1
    cases h1
  refine h.repage rfl rfl (fun id i => iff_of_false (fun hu => ?_) (hnone id i)) ?_
    (fun q i => taken_other) ?_ ?_ ?_ ?_ ?_
  · obtain ⟨j, hj⟩ := h.placed id p hu.live hu.pool
    exact hnone id j hj
  · rintro _ ⟨⟩
    refine ⟨fun i => (hmask i).trans (and_congr Iff.rfl ?_), ⟨0, .inr rfl⟩, hb,
      fun q qg _ hq => hf q qg hq⟩
    have : ¬Taken s none p i := fun ht => (taken_none.mp ht).elim fun id hu => hnone id i hu
    rw [taken_some]
    tauto
  · intro q i hr
    obtain ⟨rfl, rfl⟩ := mk.inj (some.inj hr)
    exact ⟨fun id => hnone id 0, _, update_self .., lt_of_succ_lt hobj⟩
  · intro c
    rw [mem_update_cons, or_iff_right (hpart c), and_iff_left rfl]
    refine ⟨fun e => ⟨_, rfl, e.symm, hnz⟩, ?_⟩
    rintro ⟨_, ⟨⟩, e, -⟩
    exact e.symm
  · exact fun q c hq => mem_update_cons.trans (or_iff_left fun h => hq h.2)
  · exact nodup_update h.nodup (List.nodup_cons.mpr ⟨hpart _, h.nodup _⟩)
  obtain ⟨ps, h1, h2⟩ := h.memory
  have hps : p ∉ ps := by
    rw [h1, hp]
    exact Bool.false_ne_true
  refine ⟨insert p ps, fun q => ?_, ?_⟩
  · rw [mem_insert, h1]
    dsimp only
    rw [update_apply]
    split
    · next e => exact iff_of_true (.inl e) rfl
    · next e => rw [or_iff_right e]
  · rw [card_insert_of_notMem hps, h2, mul_succ, add_assoc]

/-- **An object is taken.**  It is large enough and nobody else has it, and no object moves. -/
theorem packedAlloc_spec {env : Env} (h : Layout s none) (hn : n ≤ 2048)
    (hf : env.Fresh s) (he : packedAlloc s n env = (some (p, i), s')) :
    Layout s' (some (p, i)) ∧ Kept s s' ∧ (∃ pg, s'.pages p = some pg ∧ n ≤ pg.size) ∧
      ∀ q, Stays s s' q := by
  unfold packedAlloc at he
  dsimp only at he
  split at he
  · next q rest hb =>
    split at he
    · exact absurd (mk.inj he).1 (by simp)
    next pg hp =>
    obtain ⟨hr, rfl⟩ := mk.inj he
    obtain ⟨rfl, rfl⟩ := mk.inj (some.inj hr)
    refine ⟨h.allocOld hb hp, Kept.intro _ _ _ _, ⟨_, update_self .., ?_⟩, .remask hp rfl⟩
    rw [((h.mem_partials_iff hp).mp (hb ▸ List.mem_cons_self)).1]
    exact le_bin_size n
  split at he
  · exact absurd (mk.inj he).1 (by simp)
  split at he
  swap
  · exact absurd (mk.inj he).1 (by simp)
  next q frame hd hfr =>
  obtain ⟨hr, rfl⟩ := mk.inj he
  obtain ⟨rfl, rfl⟩ := mk.inj (some.inj hr)
  have hp := hf.desc q hd
  have hbin : (n + 63) / 64 - 1 < 32 := by omega
  refine ⟨h.allocNew ⟨frame, 0, (n + 63) / 64 - 1⟩ hbin hp
    fun q' qg hq => hf.frame frame q' qg hfr hq, Kept.intro _ _ _ _,
    ⟨_, update_self .., le_bin_size n⟩, ?_⟩
  intro q' qg hq
  dsimp only
  rw [update_of_ne]
  · exact ⟨qg, hq, rfl, rfl⟩
  rintro rfl
  rw [hp] at hq
  cases hq

end Alloc

/-! ## An object is given back -/

section Free

theorem PackedPage.size_pos (pg : PackedPage) : 0 < pg.size :=
  Nat.mul_pos pg.bin.succ_pos (by decide)

theorem Layout.mem_relink (h : Layout s r) (hp : s.pages p = some pg)
    (q c : ℕ) : q ∈ relink s p pg c ↔ q ∈ s.partials c ∨ c = pg.bin ∧ q = p := by
  rw [relink]
  split
  · exact mem_update_cons
  · next hne =>
    refine (or_iff_left_of_imp ?_).symm
    rintro ⟨rfl, rfl⟩
    exact (h.mem_partials_iff hp).mpr ⟨rfl, hne⟩

theorem Layout.nodup_relink (h : Layout s r) (hp : s.pages p = some pg) :
    ∀ c, (relink s p pg c).Nodup := by
  rw [relink]
  split
  · next hz =>
    refine nodup_update h.nodup (List.nodup_cons.mpr ⟨fun hm => ?_, h.nodup _⟩)
    exact ((h.mem_partials_iff hp).mp hm).2 hz
  · exact h.nodup

theorem Layout.drop (h : Layout s (some (p, i))) (hp : s.pages p = some pg)
    (hnone : ∀ id j, ¬InUse s id p j) : Layout { s with
      pages := update s.pages p none
      partials := update (relink s p pg) pg.bin ((relink s p pg pg.bin).erase p)
      stats := { s.stats with memoryBytes := s.stats.memoryBytes - packedCharge } } none := by
  have hmem : ∀ q c, q ∈ update (relink s p pg) pg.bin ((relink s p pg pg.bin).erase p) c ↔
      q ≠ p ∧ q ∈ s.partials c := by
    intro q c
    have hc : q = p → q ∈ s.partials c → pg.bin = c := by
      rintro rfl hm
      exact ((h.mem_partials_iff hp).mp hm).1
    rw [mem_update_erase (h.nodup_relink hp _), h.mem_relink hp]
    tauto
  refine h.repage rfl rfl (fun id j => iff_of_false (fun hu => ?_) (hnone id j))
    (fun _ ho => by cases ho) (fun q j hq => (taken_other hq).symm) (fun _ _ hr => by cases hr)
    ?_ ?_ ?_ ?_
  · obtain ⟨qg, h1, -⟩ := hu.data
    cases (update_self ..).symm.trans h1
  · intro c
    exact iff_of_false (fun hm => ((hmem p c).mp hm).1 rfl) fun ⟨_, h1, _⟩ => by cases h1
  · intro q c hq
    exact (hmem q c).trans (and_iff_right hq)
  · exact nodup_update (h.nodup_relink hp) ((h.nodup_relink hp _).erase p)
  obtain ⟨ps, h1, h2⟩ := h.memory
  have hps : p ∈ ps := by
    rw [h1, hp]
    rfl
  refine ⟨ps.erase p, fun q => ?_, ?_⟩
  · rw [mem_erase, h1]
    dsimp only
    rw [update_apply]
    split
    · next e => exact iff_of_false (fun h => h.1 e) Bool.false_ne_true
    · next e => rw [and_iff_right e]
  · rw [h2, ← card_erase_add_one hps, mul_succ, ← add_assoc, Nat.add_sub_cancel]

theorem packedFree_kept (s : Store) (p off : ℕ) : Kept s (packedFree s p off) := by
  rw [packedFree]
  split
  · exact Kept.intro s s.pages s.partials s.stats.memoryBytes
  dsimp only
  split
  · exact Kept.intro ..
  · exact Kept.intro s _ _ s.stats.memoryBytes

theorem packedFree_eq (hp : s.pages p = some pg) : packedFree s p (i * pg.size) =
      if pg.mask ||| (1#64 <<< i) = pg.all then
        { s with
          pages := update s.pages p none
          partials := update (relink s p pg) pg.bin ((relink s p pg pg.bin).erase p)
          stats := { s.stats with memoryBytes := s.stats.memoryBytes - packedCharge } }
      else
        { s with
          pages := update s.pages p (some { pg with mask := pg.mask ||| (1#64 <<< i) })
          partials := relink s p pg } := by
  rw [packedFree, hp]
  dsimp only
  rw [Nat.mul_div_cancel i pg.size_pos]

/-- **The object held by nobody is given back**, and no object in use moves. -/
theorem packedFree_spec (h : Layout s (some (p, i))) (hp : s.pages p = some pg) :
    Layout (packedFree s p (i * pg.size)) none ∧
      ∀ id q j, InUse s id q j → Stays s (packedFree s p (i * pg.size)) q := by
  obtain ⟨hfree, _, h1, hi⟩ := h.spare p i rfl
  obtain rfl := some.inj (hp.symm.trans h1)
  have hbin := h.bin p pg hp
  have hi' : i < 64 := lt_of_lt_of_le hi objects_le
  -- the new mask has the objects that no slot has
  have hmask : ∀ j, (pg.mask ||| (1#64 <<< i)).getLsbD j = true ↔
      j < pg.objects ∧ ¬Taken s none p j := by
    intro j
    rw [getLsbD_set _ hi', Bool.or_eq_true, decide_eq_true_eq, h.mask p pg j hp]
    simp only [Taken, some.injEq, Prod.mk.injEq, true_and, reduceCtorEq, or_false]
    constructor
    · rintro (⟨h1, h2⟩ | rfl)
      · exact ⟨h1, fun hu => h2 (.inl hu)⟩
      · exact ⟨hi, fun ⟨id, hu⟩ => hfree id hu⟩
    rintro ⟨h1, h2⟩
    by_cases hj : j = i
    · exact .inr hj
    · exact .inl ⟨h1, fun hu => hu.elim h2 fun e => hj e.symm⟩
  rw [packedFree_eq hp]
  split
  · next hall =>
    have hnone : ∀ id j, ¬InUse s id p j := by
      intro id j hu
      obtain ⟨_, h1, -, hj⟩ := hu.data
      obtain rfl := some.inj (hp.symm.trans h1)
      have hbit := all_getLsbD hbin j
      rw [← hall, decide_eq_true hj] at hbit
      exact ((hmask j).mp hbit).2 (.inl ⟨id, hu⟩)
    refine ⟨h.drop hp hnone, fun id q j hu => .of_eq (update_of_ne ?_ ..)⟩
    rintro rfl
    exact hnone id j hu
  next hall =>
  refine ⟨?_, fun id q j _ => .remask hp rfl q⟩
  have hnz : pg.mask ||| (1#64 <<< i) ≠ 0 := by
    intro hz
    have hbit := (eq_zero_iff _).mp hz i
    simp [getLsbD_set _ hi'] at hbit
  refine h.remask rfl rfl rfl hp rfl hmask (fun q j hq => (taken_other hq).symm)
    (fun _ _ hr => by cases hr) ?_ ?_ ?_ ?_
  · -- otherwise the mask would have all objects
    by_contra hno
    refine hall (BitVec.eq_of_getLsbD_eq fun j _ => Bool.eq_iff_iff.mpr ?_)
    rw [all_getLsbD hbin, hmask, decide_eq_true_eq]
    exact and_iff_left fun ht => hno ⟨j, ht⟩
  · intro c
    rw [h.mem_relink hp, h.mem_partials_iff hp]
    tauto
  · exact fun q c hq => (h.mem_relink hp q c).trans (or_iff_left fun h => hq h.2)
  · exact h.nodup_relink hp

end Free

/-! ## A slot changes -/

section Reslot

variable {r' : Option (ℕ × ℕ)} {id : ℕ}

theorem InUse.unique (h : InUse s id p i) (h' : InUse s id q j) : (q, j) = (p, i) := by
  obtain rfl : p = q := some.inj (h.pool.symm.trans h'.pool)
  obtain ⟨pg, h1, h2, -⟩ := h.data
  obtain ⟨qg, h3, h4, -⟩ := h'.data
  obtain rfl := some.inj (h1.symm.trans h3)
  have hmul : i * pg.size = j * pg.size := (mk.inj (h2.symm.trans h4)).2
  rw [eq_of_mul_eq_mul_right pg.size_pos hmul]

/-- A step that changes only slots. -/
structure Reslot (s s' : Store) : Prop where
  pages : s'.pages = s.pages
  partials : s'.partials = s.partials
  count : s'.count = s.count
  memory : s'.stats.memoryBytes = s.stats.memoryBytes

theorem Layout.reslot (h : Layout s r) (he : Reslot s s')
    (hplaced : ∀ id p, 0 < (s'.slots id).refs → (s'.slots id).pool = some p → ∃ i, InUse s' id p i)
    (hexcl : ∀ id id' p i, InUse s' id p i → InUse s' id' p i → id = id')
    (hspare : ∀ p i, r' = some (p, i) →
      (∀ id, ¬InUse s' id p i) ∧ ∃ pg, s.pages p = some pg ∧ i < pg.objects)
    (htaken : ∀ p i, Taken s' r' p i ↔ Taken s r p i) : Layout s' r' where
  placed := hplaced
  excl := hexcl
  spare p i hr := by
    rw [he.pages]
    exact hspare p i hr
  mask p pg i hp := by
    rw [htaken]
    exact h.mask p pg i (he.pages ▸ hp)
  held p pg hp := by
    obtain ⟨i, hi⟩ := h.held p pg (he.pages ▸ hp)
    exact ⟨i, (htaken p i).mpr hi⟩
  bin p pg hp := h.bin p pg (he.pages ▸ hp)
  frame p q pg qg hp hq := h.frame p q pg qg (he.pages ▸ hp) (he.pages ▸ hq)
  mem_partials p b := by
    rw [he.partials, he.pages]
    exact h.mem_partials p b
  nodup b := he.partials ▸ h.nodup b
  memory := by
    rw [he.pages, he.count, he.memory]
    exact h.memory

theorem Reslot.inUse (he : Reslot s s') {id' : ℕ} (hs : s'.slots id' = s.slots id') :
    InUse s' id' q j ↔ InUse s id' q j :=
  ⟨fun h => h.congr hs.symm (.of_eq (by rw [he.pages])),
    fun h => h.congr hs (.of_eq (by rw [he.pages]))⟩

theorem Layout.keep (h : Layout s r) (he : Reslot s s')
    (huse : ∀ {a q j}, InUse s' a q j ↔ InUse s a q j)
    (hold : ∀ a q, 0 < (s'.slots a).refs → (s'.slots a).pool = some q →
      0 < (s.slots a).refs ∧ (s.slots a).pool = some q) : Layout s' r := by
  refine h.reslot he ?_ ?_ ?_ ?_
  · intro a q h1 h2
    obtain ⟨h3, h4⟩ := hold a q h1 h2
    obtain ⟨j, hj⟩ := h.placed a q h3 h4
    exact ⟨j, huse.mpr hj⟩
  · intro a b q j ha hb
    exact h.excl a b q j (huse.mp ha) (huse.mp hb)
  · intro q j hr
    obtain ⟨h1, h2⟩ := h.spare q j hr
    exact ⟨fun a ha => h1 a (huse.mp ha), h2⟩
  · intro q j
    simp [Taken, huse]

theorem Layout.same (h : Layout s r) (he : Reslot s s') (hs : s'.slots = s.slots) : Layout s' r :=
  h.keep he (he.inUse (by rw [hs])) fun a q h1 h2 => by
    rw [hs] at h1 h2
    exact ⟨h1, h2⟩

/-- An object that one slot more has is taken all the same. -/
theorem InUse.taken_iff (hnew : InUse s' id p i) (hdead : ∀ q j, ¬InUse s id q j)
    (hold : ∀ {a q j}, a ≠ id → (InUse s' a q j ↔ InUse s a q j)) :
    Taken s' none q j ↔ Taken s (some (p, i)) q j := by
  rw [taken_none]
  constructor
  · rintro ⟨a, ha⟩
    by_cases hna : a = id
    · subst hna
      exact .inr (congrArg some (hnew.unique ha).symm)
    · exact .inl ⟨a, (hold hna).mp ha⟩
  rintro (⟨a, ha⟩ | hr)
  · have hna : a ≠ id := by
      rintro rfl
      exact hdead q j ha
    exact ⟨a, (hold hna).mpr ha⟩
  · obtain ⟨rfl, rfl⟩ := mk.inj (some.inj hr)
    exact ⟨id, hnew⟩

theorem Layout.publish (h : Layout s (some (p, i))) (he : Reslot s s') (hp : s.pages p = some pg)
    (hid : (s.slots id).refs = 0) (hs : ∀ id', id' ≠ id → s'.slots id' = s.slots id')
    (hlive : 0 < (s'.slots id).refs) (hpool : (s'.slots id).pool = some p)
    (hdata : (s'.slots id).data = (pg.frame, i * pg.size)) : Layout s' none := by
  obtain ⟨hfree, _, h1, hi⟩ := h.spare p i rfl
  obtain rfl := some.inj (hp.symm.trans h1)
  have hnew : InUse s' id p i := ⟨hlive, hpool, pg, he.pages ▸ hp, hdata, hi⟩
  have hold : ∀ {id' q j}, id' ≠ id → (InUse s' id' q j ↔ InUse s id' q j) :=
    fun hne => he.inUse (hs _ hne)
  have hdead : ∀ q j, ¬InUse s id q j := fun q j hu => ne_of_gt hu.live hid
  refine h.reslot he ?_ ?_ (fun _ _ hr => by cases hr) fun q j => hnew.taken_iff hdead hold
  · intro id' q h1 h2
    by_cases hne : id' = id
    · subst hne
      obtain rfl : p = q := some.inj (hpool.symm.trans h2)
      exact ⟨i, hnew⟩
    · rw [hs id' hne] at h1 h2
      obtain ⟨j, hj⟩ := h.placed id' q h1 h2
      exact ⟨j, (hold hne).mpr hj⟩
  intro a b q j ha hb
  by_cases hna : a = id <;> by_cases hnb : b = id
  · rw [hna, hnb]
  · subst hna
    obtain ⟨rfl, rfl⟩ := mk.inj (hnew.unique ha)
    exact absurd ((hold hnb).mp hb) (hfree b)
  · subst hnb
    obtain ⟨rfl, rfl⟩ := mk.inj (hnew.unique hb)
    exact absurd ((hold hna).mp ha) (hfree a)
  · exact h.excl a b q j ((hold hna).mp ha) ((hold hnb).mp hb)

theorem Layout.unpublish (h : Layout s none) (he : Reslot s s') (hu : InUse s id p i)
    (hs : ∀ id', id' ≠ id → s'.slots id' = s.slots id') (hdead : (s'.slots id).refs = 0) :
    Layout s' (some (p, i)) := by
  have hold : ∀ {id' q j}, id' ≠ id → (InUse s' id' q j ↔ InUse s id' q j) :=
    fun hne => he.inUse (hs _ hne)
  have hnone : ∀ q j, ¬InUse s' id q j := fun _ _ hu => ne_of_gt hu.live hdead
  have hne : ∀ {a q j}, InUse s' a q j → a ≠ id := by
    rintro a q j ha rfl
    exact hnone q j ha
  refine h.reslot he ?_ ?_ ?_ fun q j => (hu.taken_iff hnone fun hne => (hold hne).symm).symm
  · intro a q h1 h2
    have hna : a ≠ id := by
      rintro rfl
      exact ne_of_gt h1 hdead
    rw [hs a hna] at h1 h2
    obtain ⟨j, hj⟩ := h.placed a q h1 h2
    exact ⟨j, (hold hna).mpr hj⟩
  · intro a b q j ha hb
    exact h.excl a b q j ((hold (hne ha)).mp ha) ((hold (hne hb)).mp hb)
  · intro q j hr
    obtain ⟨rfl, rfl⟩ := mk.inj (some.inj hr)
    obtain ⟨pg, hp, -, hi⟩ := hu.data
    exact ⟨fun a ha => hne ha (h.excl a id _ _ ((hold (hne ha)).mp ha) hu), pg, hp, hi⟩

/-- A change that no object depends on: of a slot without an object, or of its other fields. -/
theorem Layout.other (h : Layout s none) (he : Reslot s s')
    (hs : ∀ id', id' ≠ id → s'.slots id' = s.slots id')
    (hid : 0 < (s'.slots id).refs ∧ 0 < (s.slots id).refs ∧
        (s'.slots id).pool = (s.slots id).pool ∧ (s'.slots id).data = (s.slots id).data ∨
      (∀ p, 0 < (s'.slots id).refs → (s'.slots id).pool ≠ some p) ∧
        ∀ p, 0 < (s.slots id).refs → (s.slots id).pool ≠ some p) : Layout s' none := by
  have huse : ∀ {a q j}, InUse s' a q j ↔ InUse s a q j := by
    intro a q j
    by_cases hna : a = id
    · subst hna
      rcases hid with ⟨h1, h2, h3, h4⟩ | ⟨h1, h2⟩
      · exact ⟨fun hu => ⟨h2, h3 ▸ hu.pool, by rw [← he.pages, ← h4]; exact hu.data⟩,
          fun hu => ⟨h1, h3.trans hu.pool, by rw [he.pages, h4]; exact hu.data⟩⟩
      · exact iff_of_false (fun hu => h1 q hu.live hu.pool) fun hu => h2 q hu.live hu.pool
    · exact he.inUse (hs a hna)
  refine h.keep he huse fun a q h1 h2 => ?_
  by_cases hna : a = id
  · subst hna
    rcases hid with ⟨-, h4, h5, -⟩ | ⟨h4, -⟩
    · exact ⟨h4, h5 ▸ h2⟩
    · exact absurd h2 (h4 q h1)
  · rw [hs a hna] at h1 h2
    exact ⟨h1, h2⟩

end Reslot

end AvoryOS.Zram
