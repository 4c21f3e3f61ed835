import AvoryOS.Zram.Layout

/-!
# The store is a map of pinned pages

A store behaves as a map from slots to a page with its pins.  A slot that has pins reads back
the page it was created from, and only a slot without pins is given out.

The map's own operations are `Pins.add`, `Pins.get` and `Pins.put`; a count that has reached the
largest value stays there, as in the code.  A run of the store is paired with the run of the
map, and `Inv` connects the two.
-/

namespace AvoryOS.Zram

open Function List Option

/-! ## Pages and memory -/

variable {n : ℕ}

theorem sameWords_spec {w : Bytes} {l : Bytes} (hl : l.length = 8 * n)
    (h : sameWords w n l = true) : l = (List.replicate n w).flatten := by
  induction n generalizing l with
  | zero => exact eq_nil_of_length_eq_zero hl
  | succ n ih =>
    obtain ⟨h1, h2⟩ := Bool.and_eq_true_iff.mp h
    rw [replicate_succ, flatten_cons, ← ih (by rw [length_drop]; omega) h2,
      ← eq_of_beq h1, take_append_drop]

variable {comp : Bytes}

theorem squeeze_spec {page : Bytes} (hl : page.length = 4096) (h : squeeze page = some comp) :
    (comp = [] → page = (List.replicate 512 (page.take 8)).flatten) ∧
      (comp ≠ [] → decompress comp 4096 = some page) ∧ comp.length ≤ 2048 := by
  unfold squeeze at h
  split at h
  · next hw =>
    cases h
    refine ⟨fun _ => ?_, absurd rfl, Nat.zero_le _⟩
    rw [replicate_succ, flatten_cons,
      ← sameWords_spec (by rw [length_drop, hl]) hw, take_append_drop]
  · split at h
    · cases h
    obtain ⟨hpos, hle⟩ := length_compress h
    refine ⟨fun e => absurd (congrArg List.length e) (Nat.ne_of_gt hpos), fun _ => ?_, hle⟩
    rw [← hl]
    exact decompress_of_compress h

theorem readMem_write_self (mem : ℕ → ℕ → UInt8) (a : ℕ × ℕ) (b : Bytes) :
    readMem (writeMem mem a b) a b.length = b := by
  refine ext_getElem (by simp [readMem]) fun i h1 h2 => ?_
  simp [readMem, writeMem, h2]

theorem readMem_write_other (mem : ℕ → ℕ → UInt8) {a c : ℕ × ℕ} {b : Bytes}
    (h : c.1 ≠ a.1 ∨ c.2 + n ≤ a.2 ∨ a.2 + b.length ≤ c.2) :
    readMem (writeMem mem a b) c n = readMem mem c n := by
  refine map_congr_left fun i hi => ?_
  have hi := mem_range.mp hi
  rw [writeMem, update_apply]
  split
  · next e =>
    dsimp only
    rw [if_neg (by omega), e]
  · rfl

/-! ## The map -/

/-- The pages that have pins, with how many. -/
abbrev Pins := ℕ → Option (Bytes × ℕ)

/-- A page is added with one pin; `0` is no slot. -/
def Pins.add (m : Pins) (id : ℕ) (page : Bytes) : Pins :=
  if id = 0 then m else update m id (some (page, 1))

def Pins.get (m : Pins) (id : ℕ) : Bool × Pins :=
  match m id with
  | none => (false, m)
  | some (page, pins) =>
    if pins = maxRefs then (false, m)
    else (true, update m id (some (page, pins + 1)))

/-- The page goes with its last pin. -/
def Pins.put (m : Pins) (id : ℕ) : Pins :=
  match m id with
  | none => m
  | some (page, pins) =>
    if pins = maxRefs then m
    else if pins = 1 then update m id none
    else update m id (some (page, pins - 1))

def keptBytes : Option (Bytes × ℕ) → ℕ
  | none => 0
  | some (page, _) => ((squeeze page).getD []).length

variable {i : ℕ}

theorem sum_update {α : Type} {S : Finset ℕ} (hi : i ∈ S) (w : α → ℕ) (m : ℕ → α)
    (v : α) : ∑ j ∈ S, w (update m i v j) + w (m i) = ∑ j ∈ S, w (m j) + w v := by
  rw [← Finset.add_sum_erase S _ hi, ← Finset.add_sum_erase S (fun j => w (m j)) hi, update_self,
    Finset.sum_congr rfl fun j hj => by rw [update_of_ne (Finset.ne_of_mem_erase hj)]]
  omega

/-! ## The invariant -/

/-- The slot `id` has `page` with `pins` pins. -/
structure Content (s : Store) (id : ℕ) (page : Bytes) (pins : ℕ) : Prop where
  refs : (s.slots id).refs = pins
  pos : 0 < pins
  le : pins ≤ maxRefs
  length : page.length = 4096
  kept : ∃ comp, squeeze page = some comp ∧ (s.slots id).length = comp.length ∧
    (s.slots id).same = page.take 8 ∧ (comp = [] → (s.slots id).pool = none) ∧
    (comp ≠ [] → readMem s.mem (s.slots id).data comp.length = comp ∧
      ∃ p pg, (s.slots id).pool = some p ∧ s.pages p = some pg ∧ comp.length ≤ pg.size)

/-- The slots without pins, as they are linked. -/
def FreeList (s : Store) (m : Pins) : Prop :=
  ∃ l : List ℕ, Linked.Chain (fun id => (s.slots id).next) s.freeHead l ∧ l.Nodup ∧
    ∀ id, id ∈ l ↔ 1 ≤ id ∧ id ≤ s.count ∧ m id = none

structure Inv (s : Store) (m : Pins) : Prop where
  layout : Layout s none
  content : ∀ id page pins, m id = some (page, pins) → Content s id page pins
  dead : ∀ id, m id = none → (s.slots id).refs = 0
  range : ∀ id, m id ≠ none → 1 ≤ id ∧ id ≤ s.count
  free : FreeList s m
  stored : s.stats.storedPages = ∑ id ∈ Finset.Icc 1 s.count, if (m id).isSome then 1 else 0
  compressed : s.stats.compressedBytes = ∑ id ∈ Finset.Icc 1 s.count, keptBytes (m id)

variable {t : Store} {p : ℕ} {env : Env}

section

variable {s s' : Store} {m : Pins} {id : ℕ} {page : Bytes} {pins : ℕ}

section

variable (h : Content s id page pins)
include h

theorem Content.read (h1 : 1 ≤ id) (h2 : id ≤ s.count) : slotRead s id = some page := by
  obtain ⟨comp, hc, hlen, hsame, -, hmem⟩ := h.kept
  obtain ⟨hword, hdec, -⟩ := squeeze_spec h.length hc
  have hpos : 0 < (s.slots id).refs := h.refs ▸ h.pos
  rw [slotRead, if_neg (by omega), hlen]
  by_cases hn : comp = []
  · rw [if_pos (by rw [hn]; rfl), hsame, ← hword hn]
  · rw [if_neg (fun e => hn (eq_nil_of_length_eq_zero e)), (hmem hn).1, hdec hn]

theorem Content.congr (hs : s'.slots id = s.slots id)
    (hmem : ∀ comp, squeeze page = some comp → comp ≠ [] →
      readMem s'.mem (s.slots id).data comp.length = readMem s.mem (s.slots id).data comp.length)
    (hp : ∀ p, (s.slots id).pool = some p → Stays s s' p) : Content s' id page pins := by
  obtain ⟨comp, hc, hlen, hsame, hnil, hcons⟩ := h.kept
  refine ⟨hs ▸ h.refs, h.pos, h.le, h.length, comp, hc, hs ▸ hlen, hs ▸ hsame, hs ▸ hnil,
    fun hn => ?_⟩
  obtain ⟨hread, p, pg, hpool, hpg, hle⟩ := hcons hn
  obtain ⟨pg', hp', -, hb⟩ := hp p hpool pg hpg
  refine ⟨?_, p, pg', hs ▸ hpool, hp', ?_⟩
  · rw [hs, hmem comp hc hn, hread]
  · rw [PackedPage.size, hb]
    exact hle

/-- A slot whose other fields stay has the page with other pins. -/
theorem Content.repin (hn : 0 < n) (hn' : n ≤ maxRefs)
    (hs : s'.slots id = { s.slots id with refs := n }) (hm : s'.mem = s.mem)
    (hp : s'.pages = s.pages) : Content s' id page n := by
  obtain ⟨comp, hc, hlen, hsame, hnil, hcons⟩ := h.kept
  refine ⟨by rw [hs], hn, hn', h.length, comp, hc, ?_⟩
  rw [hs, hm, hp]
  exact ⟨hlen, hsame, hnil, hcons⟩

theorem Content.bytes : keptBytes (some (page, pins)) = (s.slots id).length := by
  obtain ⟨comp, hc, hlen, -⟩ := h.kept
  rw [keptBytes, hc, hlen]
  rfl

end

theorem Inv.live (h : Inv s m) (id : ℕ) (hr : (s.slots id).refs ≠ 0) :
    ∃ page, m id = some (page, (s.slots id).refs) := by
  cases hm : m id with
  | none => exact absurd (h.dead id hm) hr
  | some c =>
    obtain ⟨page, pins⟩ := c
    exact ⟨page, by rw [(h.content id page pins hm).refs]⟩

theorem Inv.object (h : Inv s m) {a : ℕ} (hm : m a = some (page, pins))
    (hq : squeeze page = some comp) (hne : comp ≠ []) : ∃ p i pg, InUse s a p i ∧
      s.pages p = some pg ∧ (s.slots a).data = (pg.frame, i * pg.size) ∧ i < pg.objects ∧
      comp.length ≤ pg.size := by
  have hc := h.content a page pins hm
  obtain ⟨_, hq', -, -, -, hcons⟩ := hc.kept
  obtain rfl := some.inj (hq'.symm.trans hq)
  obtain ⟨-, p, pg, hpool, hp, hle⟩ := hcons hne
  obtain ⟨i, hu⟩ := h.layout.placed a p (hc.refs ▸ hc.pos) hpool
  obtain ⟨_, hp', hdata, hi⟩ := hu.data
  obtain rfl := some.inj (hp.symm.trans hp')
  exact ⟨p, i, pg, hu, hp, hdata, hi, hle⟩

theorem Inv.freeHead (h : Inv s m) (h0 : s.freeHead ≠ 0) : m s.freeHead = none := by
  obtain ⟨l, hl, -, hmem⟩ := h.free
  obtain ⟨l', rfl, -⟩ := hl.pop h0
  exact ((hmem _).mp mem_cons_self).2.2

/-- A page that can neither get nor lose a pin has as many as there can be. -/
theorem Inv.stuck (h : Inv s m)
    (hg : id = 0 ∨ s.count < id ∨ (s.slots id).refs = 0 ∨ (s.slots id).refs = maxRefs)
    (hm : m id = some (page, pins)) : pins = maxRefs := by
  have hc := h.content id page pins hm
  have hr := h.range id (by rw [hm]; exact some_ne_none _)
  have hpos := hc.pos
  rw [hc.refs] at hg
  omega

theorem Inv.set (h : Inv s m) {v : Option (Bytes × ℕ)} (hr : 1 ≤ id ∧ id ≤ s.count)
    (hcount : s'.count = s.count) (hrest : ∀ a, a ≠ id → s'.slots a = s.slots a)
    (hl : Layout s' none) (hself : ∀ page pins, v = some (page, pins) → Content s' id page pins)
    (hother : ∀ a pg k, a ≠ id → m a = some (pg, k) → Content s' a pg k)
    (hdead : v = none → (s'.slots id).refs = 0) (hfree : FreeList s' (update m id v))
    (h1 : s'.stats.storedPages + (if (m id).isSome then 1 else 0) =
      s.stats.storedPages + if v.isSome then 1 else 0)
    (h2 : s'.stats.compressedBytes + keptBytes (m id) = s.stats.compressedBytes + keptBytes v) :
    Inv s' (update m id v) := by
  have hmem : id ∈ Finset.Icc 1 s.count := Finset.mem_Icc.mpr hr
  refine ⟨hl, (forall_update_iff m fun a c => ∀ pg k, c = some (pg, k) → Content s' a pg k).mpr
      ⟨hself, fun a hne pg k => hother a pg k hne⟩,
    (forall_update_iff m fun a c => c = none → (s'.slots a).refs = 0).mpr ⟨hdead, fun a hne => ?_⟩,
    (forall_update_iff m fun a c => c ≠ none → 1 ≤ a ∧ a ≤ s'.count).mpr
      ⟨fun _ => ?_, fun a _ => ?_⟩, hfree, ?_, ?_⟩
  · rw [hrest a hne]
    exact h.dead a
  · rwa [hcount]
  · rw [hcount]
    exact h.range a
  · have := sum_update hmem (fun c => if c.isSome then 1 else 0) m v
    have := h.stored
    rw [hcount]
    omega
  · have := sum_update hmem keptBytes m v
    have := h.compressed
    rw [hcount]
    omega

/-! ## Pins change -/

theorem Inv.repin (h : Inv s m) (hm : m id = some (page, pins)) (hn : 0 < n) (hn' : n ≤ maxRefs) :
    Inv { s with slots := update s.slots id { s.slots id with refs := n } }
      (update m id (some (page, n))) := by
  set s' : Store := { s with slots := update s.slots id { s.slots id with refs := n } }
  have hself : s'.slots id = { s.slots id with refs := n } := update_self ..
  have hrest : ∀ a, a ≠ id → s'.slots a = s.slots a := fun a ha => update_of_ne ha ..
  have hc := h.content id page pins hm
  have hnext : ∀ a, (s'.slots a).next = (s.slots a).next := by
    intro a
    by_cases ha : a = id
    · rw [ha, hself]
    · rw [hrest a ha]
  refine h.set (h.range id (by rw [hm]; exact some_ne_none _)) rfl hrest ?_ ?_ ?_
    (fun hv => by cases hv) ?_ (by rw [hm]; rfl) (by rw [hm]; rfl)
  · have hpos : 0 < (s.slots id).refs := hc.refs ▸ hc.pos
    exact h.layout.other ⟨rfl, rfl, rfl, rfl⟩ hrest
      (.inl ⟨by rw [hself]; exact hn, hpos, by rw [hself], by rw [hself]⟩)
  · rintro _ _ ⟨⟩
    exact hc.repin hn hn' hself rfl rfl
  · intro a pg k hne ha
    exact (h.content a pg k ha).congr (hrest a hne) (fun _ _ _ => rfl) fun _ _ => .of_eq rfl
  obtain ⟨l, h1, h2, h3⟩ := h.free
  refine ⟨l, h1.congr fun a _ => hnext a, h2, fun a => ?_⟩
  rw [h3, update_apply]
  split
  · next e => rw [e, hm]; simp
  · rfl

theorem Inv.get (h : Inv s m) (id : ℕ) :
    Inv (slotGet s id).2 (m.get id).2 ∧ (slotGet s id).1 = (m.get id).1 := by
  rw [slotGet]
  split
  · next hg =>
    have hm : m.get id = (false, m) := by
      rw [Pins.get]
      split
      · rfl
      next page pins hm => rw [if_pos (h.stuck hg hm)]
    rw [hm]
    exact ⟨h, rfl⟩
  · next hg =>
    obtain ⟨page, hm⟩ := h.live id (fun e => hg (.inr (.inr (.inl e))))
    have hle := (h.content id page _ hm).le
    rw [Pins.get, hm]
    dsimp only
    rw [if_neg (by tauto)]
    exact ⟨h.repin hm (Nat.succ_pos _) (by omega), rfl⟩

/-! ## The last pin goes -/

theorem packedFree_slots (s : Store) (f : ℕ → Slot) (p off : ℕ) :
    packedFree { s with slots := f } p off = { packedFree s p off with slots := f } := by
  simp only [packedFree]
  cases s.pages p with
  | none => rfl
  | some pg =>
    dsimp only
    split <;> rfl

section

variable (h : Inv s m)
include h

/-- The slot is cleared, once its object is given back (`t`). -/
theorem Inv.clear (hm : m id = some (page, 1)) (hk : Kept s t) (hl : Layout (clearSlot t id) none)
    (hp : ∀ a q j, a ≠ id → InUse s a q j → Stays s t q) :
    Inv (clearSlot t id) (update m id none) := by
  have hc := h.content id page 1 hm
  have hrange := h.range id (by rw [hm]; exact some_ne_none _)
  have hself : (clearSlot t id).slots id = { Slot.empty with next := t.freeHead } := update_self ..
  have hrest : ∀ a, a ≠ id → (clearSlot t id).slots a = s.slots a := fun a ha =>
    (update_of_ne ha ..).trans (congrFun hk.slots a)
  refine h.set hrange hk.count hrest hl (fun _ _ hv => by cases hv) ?_
    (fun _ => congrArg Slot.refs hself) ?_ ?_ ?_
  · intro a pg k hne ha
    have hca := h.content a pg k ha
    refine hca.congr (hrest a hne) (fun _ _ _ => by rw [← hk.mem]; rfl) fun q hq => ?_
    obtain ⟨j, hj⟩ := h.layout.placed a q (hca.refs ▸ hca.pos) hq
    exact hp a q j hne hj
  · obtain ⟨l, h1, h2, h3⟩ := h.free
    have hid : id ∉ l := fun hin => by
      rw [((h3 id).mp hin).2.2] at hm
      cases hm
    refine ⟨id :: l, ?_, nodup_cons.mpr ⟨hid, h2⟩, fun a => ?_⟩
    · refine h1.push (Nat.ne_of_gt hrange.1) hid (fun a ha => ?_) ?_
      · rw [hrest a ha]
      · exact (congrArg Slot.next hself).trans hk.freeHead
    change _ ↔ 1 ≤ a ∧ a ≤ t.count ∧ _
    rw [mem_cons, h3, hk.count]
    by_cases hne : a = id
    · subst hne
      exact iff_of_true (.inl rfl) ⟨hrange.1, hrange.2, update_self ..⟩
    · rw [or_iff_right hne, update_of_ne hne]
  · change t.stats.storedPages - 1 + _ = _
    have := sum_update (Finset.mem_Icc.mpr hrange) (fun c => if c.isSome then 1 else 0) m none
    rw [hk.storedPages]
    simp only [hm, isSome_some, isSome_none, if_true, Bool.false_eq_true, if_false,
      h.stored] at this ⊢
    omega
  · change t.stats.compressedBytes - (t.slots id).length + _ = _
    have := sum_update (Finset.mem_Icc.mpr hrange) keptBytes m none
    rw [hm, ← h.compressed, hc.bytes] at this
    rw [hk.compressedBytes, hk.slots, hm, hc.bytes]
    simp only [keptBytes] at this ⊢
    omega

theorem Inv.putObject (hm : m id = some (page, 1)) (hp : (s.slots id).pool = some p) :
    Inv (clearSlot (packedFree s p (s.slots id).data.2) id) (update m id none) := by
  have hc := h.content id page 1 hm
  obtain ⟨i, hu⟩ := h.layout.placed id p (hc.refs ▸ hc.pos) hp
  obtain ⟨pg, hpg, hdata, -⟩ := hu.data
  -- the frames do not see in which order the slot and the object are given back
  set f := update s.slots id { Slot.empty with next := s.freeHead } with hf
  have hrest : ∀ a, a ≠ id → f a = s.slots a := fun a ha => update_of_ne ha ..
  have hdead : (f id).refs = 0 := by
    rw [hf, update_self]
    rfl
  have h1 : Layout { s with slots := f } (some (p, i)) :=
    h.layout.unpublish ⟨rfl, rfl, rfl, rfl⟩ hu hrest hdead
  obtain ⟨h2, hmove⟩ := packedFree_spec h1 hpg
  have hk := packedFree_kept s p (i * pg.size)
  rw [hdata]
  rw [packedFree_slots] at h2 hmove
  refine h.clear hm hk (h2.same ⟨rfl, rfl, rfl, rfl⟩ ?_) ?_
  · change update (packedFree s p (i * pg.size)).slots id _ = f
    rw [hk.slots, hk.freeHead]
  · exact fun a q j hne ha => hmove a q j (ha.congr (hrest a hne) (.of_eq rfl))

theorem Inv.put (id : ℕ) : Inv (slotPut s id) (m.put id) := by
  rw [slotPut]
  split
  · next hg =>
    have hm : m.put id = m := by
      rw [Pins.put]
      split
      · rfl
      next page pins hm => rw [if_pos (h.stuck hg hm)]
    rw [hm]
    exact h
  next hg =>
  obtain ⟨page, hm⟩ := h.live id (fun e => hg (.inr (.inr (.inl e))))
  have hc := h.content id page _ hm
  have hle := hc.le
  rw [Pins.put, hm]
  dsimp only
  rw [if_neg (fun e => hg (.inr (.inr (.inr e))))]
  split
  · next hlast =>
    rw [if_neg (by omega)]
    exact h.repin hm (by omega) (by omega)
  next hlast =>
  have hone : (s.slots id).refs = 1 := by omega
  rw [if_pos hone]
  rw [hone] at hm hc
  cases hp : (s.slots id).pool with
  | some p => exact h.putObject hm hp
  | none =>
    refine h.clear hm (Kept.intro s s.pages s.partials s.stats.memoryBytes) ?_
      fun _ _ _ _ _ => .of_eq rfl
    refine h.layout.other ⟨rfl, rfl, rfl, rfl⟩ (fun a ha => update_of_ne ha ..)
      (.inr ⟨fun p hl => ?_, fun p _ => by rw [hp]; exact (some_ne_none p).symm⟩)
    have hself : (clearSlot s id).slots id = { Slot.empty with next := s.freeHead } :=
      update_self ..
    exact absurd (congrArg Slot.refs hself) (Nat.ne_of_gt hl)

/-! ## A page is stored -/

theorem Inv.quiet (he : Reslot s s') (hs : s'.slots = s.slots) (hf : s'.freeHead = s.freeHead)
    (hmem : ∀ p pg, s.pages p = some pg → s'.mem pg.frame = s.mem pg.frame)
    (h1 : s'.stats.storedPages = s.stats.storedPages)
    (h2 : s'.stats.compressedBytes = s.stats.compressedBytes) : Inv s' m := by
  refine ⟨h.layout.same he hs, ?_, ?_, ?_, ?_, ?_, ?_⟩
  · intro a page pins ha
    have hc := h.content a page pins ha
    refine hc.congr (by rw [hs]) (fun comp hq hne => ?_) fun p _ => .of_eq (by rw [he.pages])
    obtain ⟨p, i, pg, -, hp, hdata, -⟩ := h.object ha hq hne
    rw [readMem, readMem, hdata, hmem p pg hp]
  · intro a ha
    rw [hs]
    exact h.dead a ha
  · intro a ha
    rw [he.count]
    exact h.range a ha
  · rw [FreeList, hs, hf, he.count]
    exact h.free
  · rw [h1, he.count]
    exact h.stored
  · rw [h2, he.count]
    exact h.compressed

theorem Inv.add (hid : s.freeHead = id) (h0 : id ≠ 0) (hc : squeeze page = some comp)
    (hl : Layout s' none) (hcont : Content s' id page 1)
    (hother : ∀ a pg k, a ≠ id → m a = some (pg, k) → Content s' a pg k)
    (hrest : ∀ a, a ≠ id → s'.slots a = s.slots a) (hf : s'.freeHead = (s.slots id).next)
    (hcount : s'.count = s.count) (h1 : s'.stats.storedPages = s.stats.storedPages + 1)
    (h2 : s'.stats.compressedBytes = s.stats.compressedBytes + comp.length) :
    Inv s' (update m id (some (page, 1))) := by
  obtain ⟨l, hl1, hl2, hl3⟩ := h.free
  rw [hid] at hl1
  obtain ⟨l', rfl, hl'⟩ := hl1.pop h0
  obtain ⟨hr1, hr2, hnone⟩ := (hl3 id).mp mem_cons_self
  obtain ⟨hnot, hnd⟩ := nodup_cons.mp hl2
  refine h.set ⟨hr1, hr2⟩ hcount hrest hl ?_ hother (fun hv => by cases hv) ?_ ?_ ?_
  · rintro _ _ ⟨⟩
    exact hcont
  · refine ⟨l', ?_, hnd, fun a => ?_⟩
    · rw [hf]
      refine hl'.congr fun a ha => ?_
      rw [hrest a fun e => hnot (e ▸ ha)]
    rw [hcount]
    by_cases hne : a = id
    · subst hne
      exact iff_of_false hnot (by simp)
    · rw [update_of_ne hne, ← hl3, mem_cons, or_iff_right hne]
  · rw [hnone, h1]
    rfl
  · rw [hnone, h2]
    simp [keptBytes, hc]

theorem Inv.storeSame (hl : page.length = 4096) (hc : squeeze page = some [])
    (hid : s.freeHead = id) (h0 : id ≠ 0) :
    Inv (publish { s with freeHead := (s.slots id).next } id (0, 0) none (page.take 8) [])
      (update m id (some (page, 1))) := by
  set t := publish { s with freeHead := (s.slots id).next } id (0, 0) none (page.take 8) []
  have hrest : ∀ a, a ≠ id → t.slots a = s.slots a := fun a ha => update_of_ne ha ..
  have hself : t.slots id = { s.slots id with
      data := (0, 0), pool := none, same := page.take 8, length := 0, refs := 1 } :=
    update_self ..
  have hdead := h.dead id (hid ▸ h.freeHead (hid ▸ h0))
  refine h.add hid h0 hc ?_ ?_ ?_ hrest rfl rfl rfl rfl
  · refine h.layout.other ⟨rfl, rfl, rfl, rfl⟩ hrest (.inr ⟨fun p _ => ?_, fun p hlive => ?_⟩)
    · rw [hself]
      exact (some_ne_none p).symm
    · exact absurd hdead (Nat.ne_of_gt hlive)
  · refine ⟨by rw [hself], Nat.one_pos, by decide, hl, [], hc, ?_⟩
    rw [hself]
    exact ⟨rfl, rfl, fun _ => rfl, absurd rfl⟩
  · intro a pg k hne ha
    exact (h.content a pg k ha).congr (hrest a hne) (fun _ _ _ => rfl) fun _ _ => .of_eq rfl

/-- An object for a compressed page, once its slot is off the free list. -/
theorem Inv.alloc (hf : env.Fresh s) (hl : page.length = 4096) (hc : squeeze page = some comp)
    (ha : packedAlloc { s with freeHead := n } comp.length env = (some (p, i), t)) :
    Layout t (some (p, i)) ∧ Kept { s with freeHead := n } t ∧
      (∃ pg, t.pages p = some pg ∧ comp.length ≤ pg.size) ∧ ∀ q, Stays s t q := by
  have h1 : Layout { s with freeHead := n } none := h.layout.same ⟨rfl, rfl, rfl, rfl⟩ rfl
  exact packedAlloc_spec h1 (squeeze_spec hl hc).2.2 ⟨hf.desc, hf.frame⟩ ha

theorem Inv.storeObject (hf : env.Fresh s) (hl : page.length = 4096)
    (hc : squeeze page = some comp) (hne : comp ≠ []) (hid : s.freeHead = id)
    (h0 : id ≠ 0) {pg : PackedPage}
    (ha : packedAlloc { s with freeHead := (s.slots id).next } comp.length env = (some (p, i), t))
    (hp : t.pages p = some pg) :
    Inv (publish { t with mem := writeMem t.mem (pg.frame, i * pg.size) comp } id
        (pg.frame, i * pg.size) (some p) (page.take 8) comp)
      (update m id (some (page, 1))) := by
  obtain ⟨hlay, hk, ⟨pg', hp', hle⟩, hmove⟩ := h.alloc hf hl hc ha
  obtain rfl := some.inj (hp.symm.trans hp')
  obtain ⟨hspare, -⟩ := hlay.spare p i rfl
  set t' := publish { t with mem := writeMem t.mem (pg.frame, i * pg.size) comp } id
    (pg.frame, i * pg.size) (some p) (page.take 8) comp
  have hrest : ∀ a, a ≠ id → t'.slots a = t.slots a := fun a ha => update_of_ne ha ..
  have hself : t'.slots id = { t.slots id with
      data := (pg.frame, i * pg.size), pool := some p, same := page.take 8,
      length := comp.length, refs := 1 } := update_self ..
  have hdead := h.dead id (hid ▸ h.freeHead (hid ▸ h0))
  refine h.add hid h0 hc ?_ ?_ ?_ (fun a ha => (hrest a ha).trans (congrFun hk.slots a))
    hk.freeHead hk.count (congrArg (· + 1) hk.storedPages)
    (congrArg (· + comp.length) hk.compressedBytes)
  · refine hlay.publish ⟨rfl, rfl, rfl, rfl⟩ hp ?_ hrest ?_ ?_ ?_
    · rw [hk.slots]
      exact hdead
    · rw [hself]
      exact Nat.one_pos
    · rw [hself]
    · rw [hself]
  · refine ⟨by rw [hself], Nat.one_pos, by decide, hl, comp, hc, ?_⟩
    rw [hself]
    exact ⟨rfl, rfl, fun e => absurd e hne, fun _ => ⟨readMem_write_self .., p, pg, rfl, hp, hle⟩⟩
  -- the other slots have other objects
  intro a page' k hna hm
  refine (h.content a page' k hm).congr ((hrest a hna).trans (congrFun hk.slots a))
    (fun comp' hq hn' => ?_) fun q _ => hmove q
  obtain ⟨q, j, qg, hu, hqg, hdata, -, hle'⟩ := h.object hm hq hn'
  obtain ⟨qg', ht, hframe, hbin⟩ := hmove q qg hqg
  have hu' : InUse t a q j := hu.congr (by rw [hk.slots]) (hmove q)
  have hdis := hlay.disjoint ht hp (i := j) (j := i) fun e => by
    cases e
    exact hspare a hu'
  have hsize : qg'.size = qg.size := by rw [PackedPage.size, PackedPage.size, hbin]
  rw [hsize] at hdis
  rw [← show t.mem = s.mem from hk.mem]
  refine readMem_write_other t.mem ?_
  rw [hdata]
  omega

/-- A page is stored in a slot without pins, or not at all. -/
theorem Inv.store (hl : page.length = 4096) (hf : env.Fresh s) :
    Inv (storePage s page env).2 (m.add (storePage s page env).1 page) ∧
      ((storePage s page env).1 ≠ 0 → m (storePage s page env).1 = none) := by
  unfold storePage
  split
  · exact ⟨h.quiet ⟨rfl, rfl, rfl, rfl⟩ rfl rfl (fun _ _ _ => rfl) rfl rfl, absurd rfl⟩
  next comp hc =>
  dsimp only
  split
  · exact ⟨h.quiet ⟨rfl, rfl, rfl, rfl⟩ rfl rfl (fun _ _ _ => rfl) rfl rfl, absurd rfl⟩
  next h0 =>
  have hnone := h.freeHead h0
  have hadd' : m.add s.freeHead page = update m s.freeHead (some (page, 1)) := if_neg h0
  split
  · next hn =>
    subst hn
    rw [hadd']
    exact ⟨h.storeSame hl hc rfl h0, fun _ => hnone⟩
  next hn =>
  split
  · next t ha =>
    -- the slot goes back to where it was
    obtain rfl := packedAlloc_none ha
    rw [update_eq_self]
    exact ⟨h.quiet ⟨rfl, rfl, rfl, rfl⟩ rfl rfl (fun _ _ _ => rfl) rfl rfl, absurd rfl⟩
  · next p i t ha =>
    obtain ⟨-, -, ⟨pg, hp, -⟩, -⟩ := h.alloc hf hl hc ha
    rw [hadd', hp]
    exact ⟨h.storeObject hf hl hc hn rfl h0 ha hp, fun _ => hnone⟩

end

end

/-! ## Runs -/

theorem linked_init (capacity : ℕ) (h0 : i ≠ 0) (hi : i ≤ capacity) :
    Linked.Chain (fun i => if i = 0 ∨ capacity ≤ i then 0 else i + 1) i
      (List.range' i (capacity - i + 1)) := by
  induction hn : capacity - i generalizing i with
  | zero =>
    refine ⟨rfl, h0, ?_⟩
    exact if_pos (.inr (by omega))
  | succ n ih =>
    refine ⟨rfl, h0, ?_⟩
    dsimp only
    rw [if_neg (by omega)]
    exact ih (Nat.succ_ne_zero i) (by omega) (by omega)

theorem Inv.init {capacity limit : ℕ} {mem : ℕ → ℕ → UInt8} {s : Store}
    (h : init capacity limit mem = some s) : Inv s fun _ => none := by
  rw [Zram.init] at h
  split at h
  · cases h
  next hcap =>
  cases h
  refine ⟨?_, ?_, fun _ _ => rfl, fun id hn => absurd rfl hn, ?_, ?_, ?_⟩
  · refine ⟨?_, ?_, ?_, ?_, ?_, ?_, ?_, ?_, fun _ => nodup_nil, ∅, ?_, ?_⟩
    · exact fun _ _ hlive => absurd hlive (Nat.lt_irrefl 0)
    · exact fun _ _ _ _ hu => absurd hu.live (Nat.lt_irrefl 0)
    · exact fun _ _ hr => by cases hr
    · exact fun _ _ _ hp => by cases hp
    · exact fun _ _ hp => by cases hp
    · exact fun _ _ hp => by cases hp
    · exact fun _ _ _ _ hp => by cases hp
    · exact fun _ _ => iff_of_false not_mem_nil fun ⟨_, hp, _⟩ => by cases hp
    · exact fun _ => iff_of_false (Finset.notMem_empty _) Bool.false_ne_true
    · rw [Finset.card_empty, Nat.mul_zero, Nat.add_zero]
  · exact fun _ _ _ hm => by cases hm
  · have hl := linked_init capacity Nat.one_ne_zero (show 1 ≤ capacity by omega)
    refine ⟨_, hl, nodup_range', fun id => ?_⟩
    rw [mem_range'_1, and_iff_left rfl]
    dsimp only
    omega
  · exact (Finset.sum_eq_zero fun _ _ => rfl).symm
  · exact (Finset.sum_eq_zero fun _ _ => rfl).symm

/-- A run of the store, with the map of pinned pages.  The memory of frames that the store does
not have may change at any time, and any allocation may fail. -/
inductive Run (capacity limit : ℕ) : Store → Pins → Prop
  | init {mem : ℕ → ℕ → UInt8} {s : Store} (h : init capacity limit mem = some s) :
      Run capacity limit s fun _ => none
  | store {s : Store} {m : Pins} (hr : Run capacity limit s m) {page : Bytes} {env : Env}
      (hl : page.length = 4096) (hf : env.Fresh s) :
      Run capacity limit (storePage s page env).2 (m.add (storePage s page env).1 page)
  | get {s : Store} {m : Pins} (hr : Run capacity limit s m) (id : ℕ) :
      Run capacity limit (slotGet s id).2 (m.get id).2
  | put {s : Store} {m : Pins} (hr : Run capacity limit s m) (id : ℕ) :
      Run capacity limit (slotPut s id) (m.put id)
  | others {s : Store} {m : Pins} (hr : Run capacity limit s m) (mem : ℕ → ℕ → UInt8)
      (hm : ∀ p pg, s.pages p = some pg → mem pg.frame = s.mem pg.frame) :
      Run capacity limit { s with mem } m

theorem Run.inv {capacity limit : ℕ} {s : Store} {m : Pins} (h : Run capacity limit s m) :
    Inv s m := by
  induction h with
  | init h => exact Inv.init h
  | store _ hl hf ih => exact (ih.store hl hf).1
  | get _ id ih => exact (ih.get id).1
  | put _ id ih => exact ih.put id
  | others _ mem hm ih => exact ih.quiet ⟨rfl, rfl, rfl, rfl⟩ rfl rfl hm rfl rfl

def Store.live (s : Store) : Finset ℕ :=
  (Finset.Icc 1 s.count).filter fun id => 0 < (s.slots id).refs

structure Refines (s : Store) (m : Pins) : Prop where
  /-- A slot reads back the page it was created from, and others do not read. -/
  read : ∀ id, slotRead s id = (m id).map Prod.fst
  get : ∀ id, (slotGet s id).1 = (m.get id).1
  /-- A slot is given out only without pins. -/
  store : ∀ page env, page.length = 4096 → env.Fresh s → (storePage s page env).1 ≠ 0 →
    m (storePage s page env).1 = none
  live : ∀ id, id ∈ s.live ↔ m id ≠ none
  /-- The objects of two slots do not overlap, and lie in a frame. -/
  disjoint : ∀ a ∈ s.live, ∀ b ∈ s.live, a ≠ b → (s.slots a).length ≠ 0 →
    (s.slots b).length ≠ 0 → (s.slots a).data.1 ≠ (s.slots b).data.1 ∨
      (s.slots a).data.2 + (s.slots a).length ≤ (s.slots b).data.2 ∨
      (s.slots b).data.2 + (s.slots b).length ≤ (s.slots a).data.2
  inside : ∀ a ∈ s.live, (s.slots a).length ≠ 0 → (s.slots a).data.2 + (s.slots a).length ≤ 4096
  /-- The free list has each of the other slots once. -/
  free : ∃ l : List ℕ, Linked.Chain (fun id => (s.slots id).next) s.freeHead l ∧ l.Nodup ∧
    ∀ id, id ∈ l ↔ id ∈ Finset.Icc 1 s.count ∧ id ∉ s.live
  stored : s.stats.storedPages = s.live.card
  compressed : s.stats.compressedBytes = ∑ id ∈ s.live, (s.slots id).length
  kept : ∀ id page pins, m id = some (page, pins) → ∃ comp, squeeze page = some comp ∧
    (s.slots id).length = comp.length
  /-- The table, and one frame with its descriptor for each that a slot has an object of. -/
  memory : s.stats.memoryBytes = tableBytes s.count +
    packedCharge * (s.live.biUnion fun id => (s.slots id).pool.toFinset).card

section

variable {s : Store} {m : Pins}

theorem Inv.mem_live (h : Inv s m) (id : ℕ) : id ∈ s.live ↔ m id ≠ none := by
  rw [Store.live, Finset.mem_filter, Finset.mem_Icc]
  constructor
  · intro hl hn
    exact Nat.ne_of_gt hl.2 (h.dead id hn)
  intro hn
  obtain ⟨⟨page, pins⟩, hc⟩ := ne_none_iff_exists'.mp hn
  have := h.content id page pins hc
  exact ⟨h.range id hn, this.refs ▸ this.pos⟩

theorem Inv.sum_live (h : Inv s m) (f : ℕ → ℕ) (hf : ∀ id, m id = none → f id = 0) :
    ∑ id ∈ Finset.Icc 1 s.count, f id = ∑ id ∈ s.live, f id := by
  refine (Finset.sum_subset (Finset.filter_subset _ _) fun id _ hn => hf id ?_).symm
  exact not_not.mp fun hne => hn ((h.mem_live id).mpr hne)

theorem Inv.object_live (h : Inv s m) {a : ℕ} (ha : a ∈ s.live) (hl : (s.slots a).length ≠ 0) :
    ∃ p i pg, InUse s a p i ∧ s.pages p = some pg ∧ (s.slots a).data = (pg.frame, i * pg.size) ∧
      i < pg.objects ∧ (s.slots a).length ≤ pg.size := by
  obtain ⟨⟨page, pins⟩, hm⟩ := ne_none_iff_exists'.mp ((h.mem_live a).mp ha)
  obtain ⟨comp, hq, hlen, -⟩ := (h.content a page pins hm).kept
  rw [hlen] at hl ⊢
  exact h.object hm hq fun e => hl (by rw [e]; rfl)

/-- The frames are those that a slot with pins has an object of. -/
theorem Inv.frames (h : Inv s m) (ps : Finset ℕ) (hps : ∀ p, p ∈ ps ↔ (s.pages p).isSome) :
    ps = s.live.biUnion fun id => (s.slots id).pool.toFinset := by
  ext p
  rw [hps, Finset.mem_biUnion]
  constructor
  · intro hp
    obtain ⟨pg, hpg⟩ := isSome_iff_exists.mp hp
    obtain ⟨i, hi⟩ := h.layout.held p pg hpg
    obtain ⟨id, hu⟩ := taken_none.mp hi
    refine ⟨id, (h.mem_live id).mpr fun hn => Nat.ne_of_gt hu.live (h.dead id hn), ?_⟩
    rw [hu.pool]
    exact Finset.mem_singleton_self p
  · rintro ⟨id, hid, hp⟩
    have hpool : (s.slots id).pool = some p := by simpa using hp
    obtain ⟨i, hu⟩ := h.layout.placed id p (Finset.mem_filter.mp hid).2 hpool
    obtain ⟨pg, hpg, -⟩ := hu.data
    rw [hpg]
    rfl

end

/-- **The store is a map of pinned pages**, after every run. -/
theorem store_refines_pins {capacity limit : ℕ} {s : Store} {m : Pins}
    (hr : Run capacity limit s m) : Refines s m where
  read id := by
    cases hm : m id with
    | none =>
      rw [slotRead, if_pos (.inr (.inr (hr.inv.dead id hm)))]
      rfl
    | some c =>
      have hrange := hr.inv.range id (by rw [hm]; exact some_ne_none c)
      exact (hr.inv.content id c.1 c.2 hm).read hrange.1 hrange.2
  get id := (hr.inv.get id).2
  store page env hl hf := (hr.inv.store hl hf).2
  live := hr.inv.mem_live
  disjoint a ha b hb hne hla hlb := by
    obtain ⟨p, i, pg, hu, hp, hda, -, hle⟩ := hr.inv.object_live ha hla
    obtain ⟨q, j, qg, hv, hq, hdb, -, hle'⟩ := hr.inv.object_live hb hlb
    have hdis := hr.inv.layout.disjoint hp hq (i := i) (j := j) fun e => by
      cases e
      exact hne (hr.inv.layout.excl a b p i hu hv)
    rw [hda, hdb]
    omega
  inside a ha hla := by
    obtain ⟨p, i, pg, -, -, hda, hi, hle⟩ := hr.inv.object_live ha hla
    have := PackedPage.object_in hi
    rw [hda]
    omega
  free := by
    obtain ⟨l, h1, h2, h3⟩ := hr.inv.free
    refine ⟨l, h1, h2, fun id => ?_⟩
    rw [h3, hr.inv.mem_live, not_not, Finset.mem_Icc, and_assoc]
  stored := by
    rw [hr.inv.stored, hr.inv.sum_live _ fun id hn => by rw [hn]; rfl, Finset.card_eq_sum_ones]
    refine Finset.sum_congr rfl fun id hid => ?_
    rw [if_pos (isSome_iff_ne_none.mpr ((hr.inv.mem_live id).mp hid))]
  compressed := by
    rw [hr.inv.compressed, hr.inv.sum_live _ fun id hn => by rw [hn]; rfl]
    refine Finset.sum_congr rfl fun id hid => ?_
    obtain ⟨⟨page, pins⟩, hm⟩ := ne_none_iff_exists'.mp ((hr.inv.mem_live id).mp hid)
    rw [hm, (hr.inv.content id page pins hm).bytes]
  kept id page pins hm := by
    obtain ⟨comp, hc, hlen, -⟩ := (hr.inv.content id page pins hm).kept
    exact ⟨comp, hc, hlen⟩
  memory := by
    obtain ⟨ps, h1, h2⟩ := hr.inv.layout.memory
    rw [h2, hr.inv.frames ps h1]

/-- A page with the words 1 to 8 again and again. -/
def words : Bytes := flatten (replicate 512 [1, 2, 3, 4, 5, 6, 7, 8])

/-- A page of words and a page of zeros are stored, and the first is pinned once more. -/
theorem store_refines_pins_words : ∃ s m, Run 4 65536 s m ∧
    m 1 = some (words, 2) ∧ m 2 = some (replicate 4096 0, 1) ∧
    slotRead s 1 = some words ∧ slotRead s 2 = some (replicate 4096 0) := by
  obtain ⟨s0, hs0⟩ : ∃ s0, init 4 65536 (fun _ _ => 0) = some s0 := ⟨_, rfl⟩
  obtain ⟨hid, hnext⟩ : s0.freeHead = 1 ∧ (s0.slots 1).next = 2 := by
    cases hs0
    exact ⟨rfl, rfl⟩
  have hfresh : ∀ s, Env.Fresh ⟨none, none⟩ s :=
    fun _ => ⟨fun _ h => (by cases h), fun _ _ _ h => (by cases h)⟩
  -- a page of equal words takes the first free slot, whatever the system gives
  have hstore : ∀ (s : Store) (page : Bytes), squeeze page = some [] → s.freeHead ≠ 0 →
      (storePage s page ⟨none, none⟩).1 = s.freeHead ∧
        (storePage s page ⟨none, none⟩).2.freeHead = (s.slots s.freeHead).next := by
    intro s page hpage h0
    rw [storePage, hpage]
    dsimp only
    rw [if_neg h0, if_pos rfl]
    exact ⟨rfl, rfl⟩
  have h1 := hstore s0 words (by decide +kernel) (by rw [hid]; decide)
  rw [hid, hnext] at h1
  have h2 := hstore (storePage s0 words ⟨none, none⟩).2 (replicate 4096 0)
    (by decide +kernel) (by rw [h1.2]; decide)
  have hwords : words.length = 4096 := by decide +kernel
  have hzeros : (replicate 4096 0 : Bytes).length = 4096 := length_replicate ..
  have h := (((Run.init hs0).store hwords (hfresh _)).store hzeros (hfresh _)).get 1
  rw [h1.1, h2.1, h1.2] at h
  have hread := (store_refines_pins h).read
  exact ⟨_, _, h, rfl, rfl, hread 1, hread 2⟩

end AvoryOS.Zram
