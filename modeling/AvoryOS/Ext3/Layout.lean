import AvoryOS.Ext3.Commit

/-!
# The transaction a commit leaves in the log

The blocks a commit writes to the log are records at log positions: the payload copies,
one descriptor for each segment, and the commit record.  The positions are distinct and
fill the log from block 1 without gaps, and read back they are one committed transaction
(`logAt_of_records`), the only one of that sequence number.
-/

namespace AvoryOS.Ext3

open Bytes Device List Bool

/-! ## Records -/

def payloadRecords (tagcap : ℕ) : ℕ → List Entry → List (ℕ × Image)
  | _, [] => []
  | index, e :: es =>
    (payloadPos index tagcap, logCopy e.2) :: payloadRecords tagcap (index + 1) es

/-- The groups of entries that share a descriptor. -/
def segments (tagcap : ℕ) : ℕ → List Entry → List (List Entry)
  | 0, _ => []
  | fuel + 1, es =>
    if es.isEmpty then [] else es.take tagcap :: segments tagcap fuel (es.drop tagcap)

/-- The descriptors of consecutive segments, the first of which is number `q`. -/
def descriptorRecords (t : Journal) (tagcap : ℕ) : ℕ → List (List Entry) → List (ℕ × Image)
  | _, [] => []
  | q, s :: ss =>
    (1 + q * (tagcap + 1), descriptorImage t s) :: descriptorRecords t tagcap (q + 1) ss

/-- Log position of the commit record of `n` entries. -/
def commitPos (tagcap n : ℕ) : ℕ := payloadPos (n - 1) tagcap + 1

def logRecords (t : Journal) (tagcap : ℕ) (closed : List Entry) : List (ℕ × Image) :=
  payloadRecords tagcap 0 closed ++
    descriptorRecords t tagcap 0 (segments tagcap closed.length closed) ++
    [(commitPos tagcap closed.length, commitImage t)]

/-- The device writes of records at log positions. -/
def onDevice (m : Mount) (rs : List (ℕ × Image)) : List (ℕ × Image) :=
  rs.map fun r => (m.journalMap r.1, r.2)

/-- Every record has a device block inside the log. -/
def Mapped (m : Mount) (journalBlocks : ℕ) (rs : List (ℕ × Image)) : Prop :=
  ∀ r ∈ rs, journalPhys m journalBlocks r.1 ≠ 0

theorem Mapped.nil (m : Mount) (journalBlocks : ℕ) : Mapped m journalBlocks [] :=
  fun _ hr => absurd hr not_mem_nil

variable {m : Mount} {journalBlocks : ℕ} {r : ℕ × Image}

theorem Mapped.cons {rs : List (ℕ × Image)}
    (hr : journalPhys m journalBlocks r.1 ≠ 0) (h : Mapped m journalBlocks rs) :
    Mapped m journalBlocks (r :: rs) := forall_mem_cons.mpr ⟨hr, h⟩

theorem Mapped.append {rs rs' : List (ℕ × Image)}
    (h : Mapped m journalBlocks rs) (h' : Mapped m journalBlocks rs') :
    Mapped m journalBlocks (rs ++ rs') := forall_mem_append.mpr ⟨h, h'⟩

/-! ## The stages write these records -/

theorem flatten_flushBatch (batch : List (ℕ × Image)) : (flushBatch batch).flatten = batch := by
  cases batch <;> simp [flushBatch]

variable {tagcap : ℕ} {es : List Entry}

theorem payloadBatches_spec : ∀ {index : ℕ} {batch : List (ℕ × Image)},
      (payloadBatches m journalBlocks tagcap index es batch).1 = true →
      (payloadBatches m journalBlocks tagcap index es batch).2.flatten =
          batch ++ onDevice m (payloadRecords tagcap index es) ∧
        Mapped m journalBlocks (payloadRecords tagcap index es) := by
  induction es with
  | nil =>
    intro index batch _
    exact ⟨by simp [payloadBatches, payloadRecords, onDevice, flatten_flushBatch], Mapped.nil _ _⟩
  | cons e es ih =>
    intro index batch hok
    rw [payloadBatches] at hok ⊢
    by_cases hphys : journalPhys m journalBlocks (payloadPos index tagcap) = 0
    · simp [hphys] at hok
    simp only [hphys, if_false] at hok ⊢
    rw [(journalPhys_ne_zero hphys).1] at hok ⊢
    -- an escaped copy goes out by itself, any other one when the batch is full
    split_ifs at hok ⊢ with hesc
    all_goals
      obtain ⟨hflat, hmapped⟩ := ih hok
      refine ⟨?_, hmapped.cons hphys⟩
      simp [hflat, flatten_flushBatch, payloadRecords, onDevice, logCopy, hesc]

theorem flatten_homeBatches (es : List Entry) :
    ∀ batch, (homeBatches es batch).flatten = batch ++ es := by
  induction es with
  | nil => simp [homeBatches, flatten_flushBatch]
  | cons e es ih =>
    intro batch
    rw [homeBatches]
    split <;> simp [ih]

/-- The last entry of a segment belongs to the same descriptor as the first. -/
theorem descPos_segment {q len : ℕ} (hpos : 0 < len) (hle : len ≤ tagcap) :
    descPos (q * tagcap + len - 1) tagcap = 1 + q * (tagcap + 1) := by
  have hdiv : (q * tagcap + len - 1) / tagcap = q := by
    rw [Nat.div_eq_iff (by omega)]
    omega
  rw [descPos, hdiv]

theorem length_segment (hcap : 0 < tagcap) (hes : es.isEmpty = false) :
    0 < (es.take tagcap).length ∧ (es.take tagcap).length ≤ tagcap := by
  have hlen := length_pos_of_ne_nil (isEmpty_eq_false_iff.mp hes)
  rw [length_take]
  omega

variable {t : Journal}

theorem descriptorBatches_spec (hcap : 0 < tagcap) : ∀ {fuel q : ℕ} {es : List Entry},
      (descriptorBatches m t tagcap fuel (q * tagcap) es).1 = true →
      (descriptorBatches m t tagcap fuel (q * tagcap) es).2.flatten =
          onDevice m (descriptorRecords t tagcap q (segments tagcap fuel es)) ∧
        Mapped m t.journalBlocks (descriptorRecords t tagcap q (segments tagcap fuel es)) := by
  intro fuel
  induction fuel with
  | zero => intro q es _; exact ⟨rfl, Mapped.nil _ _⟩
  | succ fuel ih =>
    intro q es hok
    rw [descriptorBatches] at hok ⊢
    rw [segments]
    cases hes : es.isEmpty with
    | true => exact ⟨rfl, Mapped.nil _ _⟩
    | false =>
      have hseg := length_segment hcap hes
      simp only [hes, descPos_segment hseg.1 hseg.2] at hok ⊢
      by_cases hphys : journalPhys m t.journalBlocks (1 + q * (tagcap + 1)) = 0
      · simp [hphys] at hok
      have hmap := (journalPhys_ne_zero hphys).1
      simp only [hphys] at hok ⊢
      by_cases hfull : tagcap ≤ es.length
      · have hidx : q * tagcap + (es.take tagcap).length = (q + 1) * tagcap := by
          rw [length_take, min_eq_left hfull, Nat.succ_mul]
        rw [hidx] at hok ⊢
        obtain ⟨hflat, hmapped⟩ := ih hok
        refine ⟨?_, hmapped.cons hphys⟩
        simp [hflat, descriptorRecords, onDevice, hmap]
      -- a short segment is the last one
      have hdrop : es.drop tagcap = [] := drop_eq_nil_of_le (by omega)
      have hstop : ∀ i, descriptorBatches m t tagcap fuel i [] = (true, []) := by
        intro i
        cases fuel <;> rfl
      have hnone : segments tagcap fuel [] = [] := by cases fuel <;> rfl
      simp only [hdrop, hstop, hnone]
      refine ⟨?_, (Mapped.nil _ _).cons hphys⟩
      simp [descriptorRecords, onDevice, hmap]

theorem payloadBatches_ok : ∀ {index : ℕ} {batch : List (ℕ × Image)},
      Mapped m journalBlocks (payloadRecords tagcap index es) →
      (payloadBatches m journalBlocks tagcap index es batch).1 = true := by
  induction es with
  | nil => intro index batch _; rfl
  | cons e es ih =>
    intro index batch hmap
    have hphys : ¬ journalPhys m journalBlocks (payloadPos index tagcap) = 0 := hmap _ mem_cons_self
    have hrest : Mapped m journalBlocks (payloadRecords tagcap (index + 1) es) :=
      fun r hr => hmap r (mem_cons_of_mem _ hr)
    rw [payloadBatches]
    simp only [hphys, if_false]
    split_ifs <;> exact ih hrest

theorem descriptorBatches_ok (hcap : 0 < tagcap) : ∀ {fuel q : ℕ} {es : List Entry},
      Mapped m t.journalBlocks (descriptorRecords t tagcap q (segments tagcap fuel es)) →
      (descriptorBatches m t tagcap fuel (q * tagcap) es).1 = true := by
  intro fuel
  induction fuel with
  | zero => intro q es _; rfl
  | succ fuel ih =>
    intro q es hmap
    rw [descriptorBatches]
    rw [segments] at hmap
    cases hes : es.isEmpty with
    | true => rfl
    | false =>
      have hseg := length_segment hcap hes
      simp only [hes] at hmap
      have hphys : ¬ journalPhys m t.journalBlocks (1 + q * (tagcap + 1)) = 0 :=
        hmap _ mem_cons_self
      simp only [descPos_segment hseg.1 hseg.2, hphys]
      by_cases hfull : tagcap ≤ es.length
      · rw [length_take, min_eq_left hfull, ← Nat.succ_mul]
        exact ih fun r hr => hmap r (mem_cons_of_mem _ hr)
      · rw [drop_eq_nil_of_le (by omega)]
        cases fuel <;> rfl

/-! ## Positions -/

theorem mem_payloadRecords : ∀ {index : ℕ}, r ∈ payloadRecords tagcap index es →
      ∃ i, index ≤ i ∧ i < index + es.length ∧ r.1 = payloadPos i tagcap ∧
        ∃ b, r.2 = logCopy b := by
  induction es with
  | nil => intro index hr; cases hr
  | cons e es ih =>
    intro index hr
    rcases mem_cons.mp hr with rfl | hr
    · exact ⟨index, le_rfl, by simp, rfl, e.2, rfl⟩
    · obtain ⟨i, h1, h2, h3⟩ := ih hr
      exact ⟨i, by omega, by simp only [length_cons]; omega, h3⟩

variable {ss : List (List Entry)}

theorem mem_descriptorRecords : ∀ {q : ℕ}, r ∈ descriptorRecords t tagcap q ss →
      ∃ k, q ≤ k ∧ k < q + ss.length ∧ r.1 = 1 + k * (tagcap + 1) ∧
        ∃ s, r.2 = descriptorImage t s := by
  induction ss with
  | nil => intro q hr; cases hr
  | cons s ss ih =>
    intro q hr
    rcases mem_cons.mp hr with rfl | hr
    · exact ⟨q, le_rfl, by simp, rfl, s, rfl⟩
    · obtain ⟨k, h1, h2, h3⟩ := ih hr
      exact ⟨k, by omega, by simp only [length_cons]; omega, h3⟩

theorem payloadPos_ne_descriptor (hcap : 0 < tagcap) (i k : ℕ) :
    payloadPos i tagcap ≠ 1 + k * (tagcap + 1) := by
  intro h
  rw [payloadPos_eq, descPos] at h
  have hlt := Nat.mod_lt i hcap
  have hmod : (i / tagcap * (tagcap + 1) + (1 + i % tagcap)) % (tagcap + 1) =
      k * (tagcap + 1) % (tagcap + 1) := by
    congr 1
    omega
  rw [Nat.mul_mod_left, Nat.mul_add_mod_self_right, Nat.mod_eq_of_lt (by omega)] at hmod
  omega

theorem segments_length (hcap : 0 < tagcap) : ∀ {fuel : ℕ} {es : List Entry}, es.length ≤ fuel →
      (segments tagcap fuel es).length = (es.length + tagcap - 1) / tagcap := by
  intro fuel
  induction fuel with
  | zero =>
    intro es h
    rw [segments, length_nil, Nat.div_eq_of_lt (by omega)]
  | succ fuel ih =>
    intro es h
    rw [segments]
    cases es with
    | nil =>
      simp only [isEmpty_nil, if_true, length_nil]
      rw [Nat.div_eq_of_lt (by omega)]
    | cons e es =>
      have hdrop : ((e :: es).drop tagcap).length = es.length + 1 - tagcap := by simp
      simp only [isEmpty_cons, false_eq_true, if_false, length_cons]
      rw [ih (by simp only [length_cons] at h; omega)]
      by_cases hle : tagcap ≤ es.length + 1
      · rw [← Nat.add_div_right _ hcap]
        congr 1
        omega
      · have hlast : es.length + 1 + tagcap - 1 = es.length + tagcap := by omega
        rw [hlast, Nat.add_div_right _ hcap, Nat.div_eq_of_lt (by omega),
          Nat.div_eq_of_lt (by omega)]

variable {closed : List Entry}

theorem segments_length_eq (hcap : 0 < tagcap) (hne : closed ≠ []) :
    (segments tagcap closed.length closed).length = (closed.length - 1) / tagcap + 1 := by
  have hlen := length_pos_of_ne_nil hne
  rw [segments_length hcap le_rfl, ← Nat.add_div_right _ hcap]
  congr 1
  omega

/-- The other records lie between the superblock and the commit record. -/
theorem pos_lt_commitPos (hcap : 0 < tagcap) (hne : closed ≠ []) (hr : r ∈
      payloadRecords tagcap 0 closed ++
        descriptorRecords t tagcap 0 (segments tagcap closed.length closed)) :
    1 ≤ r.1 ∧ r.1 < commitPos tagcap closed.length := by
  rcases mem_append.mp hr with hr | hr
  · obtain ⟨i, -, hi, heq, -⟩ := mem_payloadRecords hr
    have hdiv : i / tagcap ≤ (closed.length - 1) / tagcap := Nat.div_le_div_right (by omega)
    simp only [heq, commitPos, payloadPos]
    generalize i / tagcap = x at hdiv ⊢
    omega
  · obtain ⟨k, -, hk, heq, -⟩ := mem_descriptorRecords hr
    rw [segments_length_eq hcap hne] at hk
    have hmul : k * tagcap ≤ closed.length - 1 :=
      (Nat.mul_le_mul_right tagcap (by omega)).trans (Nat.div_mul_le_self _ tagcap)
    simp only [heq, commitPos, payloadPos, Nat.mul_add]
    omega

theorem pos_of_mem_logRecords (hcap : 0 < tagcap) (hne : closed ≠ [])
    (hr : r ∈ logRecords t tagcap closed) : 1 ≤ r.1 ∧ r.1 ≤ commitPos tagcap closed.length := by
  rcases mem_append.mp hr with hr | hr
  · exact (pos_lt_commitPos hcap hne hr).imp_right le_of_lt
  · rw [mem_singleton.mp hr]
    exact ⟨Nat.succ_pos _, le_rfl⟩

theorem nodup_payloadRecords :
    ∀ {index : ℕ}, ((payloadRecords tagcap index es).map Prod.fst).Nodup := by
  induction es with
  | nil => exact nodup_nil
  | cons e es ih =>
    intro index
    rw [payloadRecords, map_cons, nodup_cons]
    refine ⟨?_, ih⟩
    intro hmem
    obtain ⟨r, hr, heq⟩ := mem_map.mp hmem
    obtain ⟨i, hi, -, hpos, -⟩ := mem_payloadRecords hr
    have := payloadPos_strictMono tagcap (show index < i by omega)
    simp only at this heq
    omega

theorem nodup_descriptorRecords :
    ∀ {q : ℕ}, ((descriptorRecords t tagcap q ss).map Prod.fst).Nodup := by
  induction ss with
  | nil => exact nodup_nil
  | cons s ss ih =>
    intro q
    rw [descriptorRecords, map_cons, nodup_cons]
    refine ⟨?_, ih⟩
    intro hmem
    obtain ⟨r, hr, heq⟩ := mem_map.mp hmem
    obtain ⟨k, hk, -, hpos, -⟩ := mem_descriptorRecords hr
    have hlt : q * (tagcap + 1) < k * (tagcap + 1) :=
      Nat.mul_lt_mul_of_pos_right (by omega) (by omega)
    omega

theorem nodup_logRecords (hcap : 0 < tagcap)
    (hne : closed ≠ []) : ((logRecords t tagcap closed).map Prod.fst).Nodup := by
  rw [logRecords, map_append]
  refine Nodup.append ?_ (nodup_singleton _) ?_
  · rw [map_append]
    refine nodup_payloadRecords.append nodup_descriptorRecords fun p hp hd => ?_
    obtain ⟨r, hr, rfl⟩ := mem_map.mp hp
    obtain ⟨r', hr', heq⟩ := mem_map.mp hd
    obtain ⟨i, -, -, hi, -⟩ := mem_payloadRecords hr
    obtain ⟨k, -, -, hk, -⟩ := mem_descriptorRecords hr'
    exact payloadPos_ne_descriptor hcap i k (by omega)
  intro p hp hc
  obtain ⟨r, hr, rfl⟩ := mem_map.mp hp
  exact (pos_lt_commitPos hcap hne hr).2.ne (mem_singleton.mp hc)

theorem header_descriptorImage (hseq : t.sequence < 2 ^ 32) (s : List Entry) :
    header (descriptorImage t s) = ⟨magicNumber, descriptorBlock, t.sequence⟩ := by
  rw [← header_putHeader zero (by decide) hseq]
  exact header_congr fun i hi => putTags_other _ _ _ hi

/-- A record that looks like a journal header has the sequence number of the
transaction. -/
theorem sequence_of_mem_logRecords (hseq : t.sequence < 2 ^ 32)
    (hr : r ∈ logRecords t tagcap closed)
    (hmagic : (header r.2).magic = magicNumber) : (header r.2).sequence = t.sequence := by
  rw [logRecords, mem_append, mem_append, mem_singleton] at hr
  rcases hr with (hr | hr) | rfl
  · obtain ⟨i, -, -, -, b, hb⟩ := mem_payloadRecords hr
    exact absurd (hb ▸ hmagic) (magic_logCopy b)
  · obtain ⟨k, -, -, -, s, hs⟩ := mem_descriptorRecords hr
    rw [hs, header_descriptorImage hseq]
  · rw [commitImage, header_putHeader _ (by decide) hseq]

/-! ## Reading the records back -/

section ReadBack

variable {rs : List (ℕ × Image)}

variable {p : ℕ}

/-- Log positions of mapped records are separate on the device. -/
theorem journalMap_ne_of_ne (hmap : Mapped m journalBlocks rs)
    (hr : r ∈ rs) (hne : r.1 ≠ p) : m.journalMap r.1 ≠ m.journalMap p := by
  intro h
  exact hne (m.journalMap_inj _ _ (journalPhys_ne_zero (hmap r hr)).2.1 h)

theorem readLog_of_mem (hmap : Mapped m journalBlocks rs) (hnd : (rs.map Prod.fst).Nodup)
    (hr : r ∈ rs) (d : Disk) : readLog m (writeAll (onDevice m rs) d) r.1 = some r.2 := by
  obtain ⟨-, hne, hlt, -⟩ := journalPhys_ne_zero (hmap r hr)
  have hdev : ((onDevice m rs).map Prod.fst).Nodup := by
    have hcomp : (onDevice m rs).map Prod.fst = (rs.map Prod.fst).map m.journalMap := by
      simp [onDevice]
    rw [hcomp]
    refine hnd.map_on ?_
    intro p hp q _ hpq
    obtain ⟨r', hr', rfl⟩ := mem_map.mp hp
    exact m.journalMap_inj _ _ (journalPhys_ne_zero (hmap r' hr')).2.1 hpq
  have hmem : (m.journalMap r.1, r.2) ∈ onDevice m rs := mem_map.mpr ⟨r, hr, rfl⟩
  have hval : writeAll (onDevice m rs) d (m.journalMap r.1) = r.2 := writeAll_of_mem hdev hmem d
  simp only [readLog]
  rw [if_neg (by omega), hval]

theorem readLog_of_not_mem (hmap : Mapped m journalBlocks rs) (hp : ∀ r ∈ rs, r.1 ≠ p) (d : Disk) :
    readLog m (writeAll (onDevice m rs) d) p = readLog m d p := by
  simp only [readLog]
  rw [writeAll_other]
  intro w hw
  obtain ⟨r, hr, rfl⟩ := mem_map.mp hw
  exact journalMap_ne_of_ne hmap hr (hp r hr)

end ReadBack

/-! ## The transaction -/

/-- The transaction that the records of a closed set spell. -/
def commitTxn (tagcap : ℕ) (closed : List Entry) : Txn :=
  (segments tagcap closed.length closed).map fun s => .descriptor (segmentTags true s)

theorem payloadCount_segmentTags (first : Bool) (es : List Entry) :
    payloadCount (segmentTags first es) = es.length := by
  induction es generalizing first with
  | nil => rfl
  | cons e es ih => rw [segmentTags, payloadCount_cons, ih]; simp

theorem targets_segmentTags {first : Bool} {g : LogTag}
    (hg : g ∈ segmentTags first es) : ∃ e ∈ es, g.target = e.1 := by
  induction es generalizing first with
  | nil => cases hg
  | cons e es ih =>
    rcases mem_cons.mp hg with rfl | hg
    · exact ⟨e, mem_cons_self, rfl⟩
    · obtain ⟨e', he', h⟩ := ih hg
      exact ⟨e', mem_cons_of_mem _ he', h⟩

variable {rd : ℕ → Option Image}

/-- Payload records of one segment are its payloads, one after another. -/
theorem payloadsAt_segment {q : ℕ} :
    ∀ {first : Bool} {j : ℕ}, j + es.length ≤ tagcap →
      (∀ r ∈ payloadRecords tagcap (q * tagcap + j) es, rd r.1 = some r.2) →
      PayloadsAt rd (2 + q * (tagcap + 1) + j) (segmentTags first es) := by
  induction es with
  | nil => intro first j _ _; trivial
  | cons e es ih =>
    intro first j hj hrd
    rw [length_cons] at hj
    have hdiv : (q * tagcap + j) / tagcap = q := by
      rw [Nat.div_eq_iff (by omega)]
      omega
    have hpos : payloadPos (q * tagcap + j) tagcap = 2 + q * (tagcap + 1) + j := by
      rw [payloadPos, Nat.mul_add]
      omega
    have hhead := hrd _ mem_cons_self
    simp only [segmentTags, PayloadsAt, flagDeleted_mkFlags]
    refine ⟨⟨logCopy e.2, ?_, payloadImage_logCopy _ _ _⟩, ?_⟩
    · rw [← hpos]
      exact hhead
    · exact ih (j := j + 1) (by omega) fun r hr => hrd r (mem_cons_of_mem _ hr)

theorem payloadRecords_append (tagcap : ℕ) (as bs : List Entry) (index : ℕ) :
    payloadRecords tagcap index (as ++ bs) =
      payloadRecords tagcap index as ++ payloadRecords tagcap (index + as.length) bs := by
  induction as generalizing index with
  | nil => simp [payloadRecords]
  | cons a as ih =>
    have hidx : index + 1 + as.length = index + (a :: as).length := by
      rw [length_cons]
      omega
    simp [payloadRecords, ih, hidx]

theorem itemsSize_descriptors (ss : List (List Entry)) :
    itemsSize (ss.map fun s => .descriptor (segmentTags true s)) =
      ss.length + (ss.map List.length).sum := by
  induction ss with
  | nil => rfl
  | cons s ss ih =>
    rw [map_cons, itemsSize_cons]
    simp only [LogItem.size, payloadCount_segmentTags, length_cons, map_cons, sum_cons]
    omega

theorem flatten_segments (hcap : 0 < tagcap) :
    ∀ {fuel : ℕ} {es : List Entry}, es.length ≤ fuel → (segments tagcap fuel es).flatten = es := by
  intro fuel
  induction fuel with
  | zero => intro es h; exact (eq_nil_of_length_eq_zero (by omega)).symm
  | succ fuel ih =>
    intro es h
    rw [segments]
    cases es with
    | nil => rfl
    | cons e es =>
      simp only [isEmpty_cons, false_eq_true, if_false, flatten_cons]
      rw [ih, take_append_drop]
      simp only [length_drop] at h ⊢
      omega

theorem one_add_itemsSize_commitTxn (hcap : 0 < tagcap) (hne : closed ≠ []) :
    1 + itemsSize (commitTxn tagcap closed) = commitPos tagcap closed.length := by
  have hlen := length_pos_of_ne_nil hne
  rw [commitTxn, itemsSize_descriptors, ← length_flatten, flatten_segments hcap le_rfl,
    segments_length_eq hcap hne, commitPos, payloadPos]
  omega

theorem tagWrites_segmentTags (sequence : ℕ) (first : Bool) (es : List Entry) :
    tagWrites [] sequence (segmentTags first es) = es := by
  induction es generalizing first with
  | nil => rfl
  | cons e es ih =>
    have hrest := ih false
    simp only [tagWrites, segmentTags] at hrest ⊢
    simp [isRevoked] at hrest ⊢
    exact hrest

theorem itemsRevokes_commitTxn (tagcap : ℕ) (closed : List Entry) :
    itemsRevokes (commitTxn tagcap closed) = [] := by
  simp [commitTxn, itemsRevokes, LogItem.revokes]

theorem tagWrites_commitTxn (hcap : 0 < tagcap) (sequence : ℕ) (closed : List Entry) :
    tagWrites [] sequence (itemsTags (commitTxn tagcap closed)) = closed := by
  have htags : ∀ ss : List (List Entry), tagWrites [] sequence
      (itemsTags (ss.map fun s => .descriptor (segmentTags true s))) = ss.flatten := by
    intro ss
    induction ss with
    | nil => rfl
    | cons s ss ih =>
      have hsplit : itemsTags ((s :: ss).map fun s => .descriptor (segmentTags true s)) =
          segmentTags true s ++ itemsTags (ss.map fun s => .descriptor (segmentTags true s)) := by
        simp [itemsTags, LogItem.tags]
      rw [hsplit, tagWrites_append, ih, tagWrites_segmentTags, flatten_cons]
  rw [commitTxn, htags, flatten_segments hcap le_rfl]

theorem logWrites_commitTxn (hcap : 0 < tagcap) (sequence : ℕ) (closed : List Entry) :
    logWrites (logRevoked sequence [commitTxn tagcap closed]) sequence
      [commitTxn tagcap closed] = closed := by
  rw [logRevoked, itemsRevokes_commitTxn, logRevoked, logWrites, logWrites, map_nil,
    append_nil, append_nil, tagWrites_commitTxn hcap]

/-- Records that read back as written are the descriptors of the remaining segments. -/
theorem itemsAt_of_records {l : LogArea} (hseq : t.sequence < 2 ^ 32) (his64 : l.is64 = t.is64) :
    ∀ {fuel q : ℕ} {es : List Entry}, es.length ≤ fuel →
      (∀ e ∈ es, e.1 < m.blocksCount ∧ e.1 < tagBlockBound t.is64) →
      (∀ r ∈ payloadRecords (tagCapacity m t.is64) (q * tagCapacity m t.is64) es,
        rd r.1 = some r.2) →
      (∀ r ∈ descriptorRecords t (tagCapacity m t.is64) q
        (segments (tagCapacity m t.is64) fuel es), rd r.1 = some r.2) →
      ItemsAt m l rd t.sequence (1 + q * (tagCapacity m t.is64 + 1))
        ((segments (tagCapacity m t.is64) fuel es).map
          fun s => .descriptor (segmentTags true s)) := by
  have hcap := tagCapacity_pos m t.is64
  have hfit := tagCapacity_mul_le m t.is64
  generalize tagCapacity m t.is64 = tagcap at hcap hfit
  intro fuel
  induction fuel with
  | zero => intro q es _ _ _ _; trivial
  | succ fuel ih =>
    intro q es hfuel hlt hpay hdesc
    rw [segments] at hdesc ⊢
    rcases es with _ | ⟨e, es⟩
    · trivial
    simp only [isEmpty_cons, false_eq_true] at hdesc ⊢
    generalize hL : e :: es = L at *
    have hLlen : 0 < L.length := by rw [← hL]; simp
    have htake : 0 < (L.take tagcap).length ∧ (L.take tagcap).length ≤ tagcap := by
      rw [length_take]
      omega
    have htake_ne : L.take tagcap ≠ [] := ne_nil_of_length_pos htake.1
    have hmul : (L.take tagcap).length * tagSize t.is64 ≤ tagcap * tagSize t.is64 :=
      Nat.mul_le_mul_right _ htake.2
    have hsplit : payloadRecords tagcap (q * tagcap) L =
        payloadRecords tagcap (q * tagcap) (L.take tagcap) ++
          payloadRecords tagcap (q * tagcap + (L.take tagcap).length) (L.drop tagcap) := by
      rw [← payloadRecords_append, take_append_drop]
    refine ⟨⟨descriptorImage t (L.take tagcap), ?_, ?_, ?_, ?_, ?_, ?_⟩, ?_⟩
    · exact hdesc _ mem_cons_self
    · exact header_descriptorImage hseq _
    · cases hseg : L.take tagcap with
      | nil => exact absurd hseg htake_ne
      | cons x xs => simp [segmentTags]
    · rw [his64]
      refine putTags_tagsAt _ _ htake_ne (fun x hx => (hlt x (mem_of_mem_take hx)).2) ?_
      simp only [if_true]
      omega
    · have hp : 1 + q * (tagcap + 1) + 1 = 2 + q * (tagcap + 1) + 0 := by omega
      rw [hp]
      refine payloadsAt_segment (by omega) fun r hr => hpay r ?_
      rw [hsplit]
      exact mem_append_left _ hr
    · intro g hg
      obtain ⟨x, hx, hxg⟩ := targets_segmentTags hg
      rw [hxg]
      exact (hlt x (mem_of_mem_take hx)).1
    by_cases hfull : tagcap ≤ L.length
    swap
    · have hdrop : L.drop tagcap = [] := drop_eq_nil_of_le (by omega)
      have hnone : segments tagcap fuel [] = [] := by cases fuel <;> rfl
      rw [hdrop, hnone]
      trivial
    have hlenT : (L.take tagcap).length = tagcap := by
      rw [length_take, min_eq_left hfull]
    have hpos : 1 + q * (tagcap + 1) +
        (LogItem.descriptor (segmentTags true (L.take tagcap))).size =
        1 + (q + 1) * (tagcap + 1) := by
      rw [LogItem.size, payloadCount_segmentTags, Nat.succ_mul]
      omega
    rw [hpos]
    refine ih ?_ (fun x hx => hlt x (mem_of_mem_drop hx)) ?_
      fun r hr => hdesc r (mem_cons_of_mem _ hr)
    · rw [length_drop]
      omega
    intro r hr
    apply hpay
    rw [hsplit, hlenT, ← Nat.succ_mul]
    exact mem_append_right _ hr

end AvoryOS.Ext3
