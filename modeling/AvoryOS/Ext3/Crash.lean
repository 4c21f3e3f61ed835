import AvoryOS.Ext3.Layout

/-!
# Crash atomicity of a commit

Between commits the log is clean: the journal superblock has `s_start = 0` and the
sequence number of the next transaction (`Clean`).  A commit first fills the log, then
publishes its head, then writes the home blocks, then retires the log.  Wherever the
machine stops, the next mount leaves all home blocks of the set as they were or all of
them as committed.

What remains in the log from earlier transactions is told apart by its sequence number
alone, and sequence numbers are 32-bit: the result holds as long as no commit record in
the log is old enough to be taken for the next transaction.
-/

namespace AvoryOS.Ext3

open Bytes Device Function List Option Nat

/-! ## The journal superblock -/

/-- A journal superblock that agrees with the state in memory. -/
structure Superblock (m : Mount) (t : Journal) (start : ℕ) (sb : Image) : Prop where
  supported : supportedFormat m sb = true
  sequence : sSequence sb = t.sequence
  maxlen : sMaxlen sb = t.journalBlocks
  incompat : sFeatureIncompat sb = t.incompat
  start : sStart sb = start

variable {m : Mount}

theorem supportedFormat_congr {a b : Image} (h : SameBytes 16 a b)
    (hf : sFeatureIncompat a = sFeatureIncompat b) : supportedFormat m a = supportedFormat m b := by
  have hhead : header a = header b := header_congr fun i hi => h i (by omega)
  have hsize : sBlocksize a = sBlocksize b := getBe_congr fun i _ hi => h i (by omega)
  simp [supportedFormat, hhead, hsize, hf]

namespace Superblock

variable {t : Journal} {start : ℕ} {sb : Image}

section

variable (h : Superblock m t start sb)
include h

theorem sequence_lt : t.sequence < 2 ^ 32 :=
  h.sequence ▸ getBe_lt sb 24 4

theorem setStart (v : ℕ) (hv : v < 2 ^ 32) : Superblock m t v (setStart sb v) where
  supported := (supportedFormat_congr (fun i hi => putBe_other _ (by omega))
    (getBe_putBe_of_disjoint _ (by omega))).trans h.supported
  sequence := (getBe_putBe_of_disjoint _ (by omega)).trans h.sequence
  maxlen := (getBe_putBe_of_disjoint _ (by omega)).trans h.maxlen
  incompat := (getBe_putBe_of_disjoint _ (by omega)).trans h.incompat
  start := (getBe_putBe _ _ _ _).trans (mod_eq_of_lt hv)

theorem setSequence (v : ℕ) (hv : v < 2 ^ 32) :
    Superblock m { t with sequence := v } start (setSequence sb v) where
  supported := (supportedFormat_congr (fun i hi => putBe_other _ (by omega))
    (getBe_putBe_of_disjoint _ (by omega))).trans h.supported
  sequence := (getBe_putBe _ _ _ _).trans (mod_eq_of_lt hv)
  maxlen := (getBe_putBe_of_disjoint _ (by omega)).trans h.maxlen
  incompat := (getBe_putBe_of_disjoint _ (by omega)).trans h.incompat
  start := (getBe_putBe_of_disjoint _ (by omega)).trans h.start

theorem is64_eq : (logArea sb).is64 = t.is64 := by
  simp [LogArea.is64, logArea, Journal.is64, h.incompat]

/-- A volume with 64-bit block numbers has a journal with 64-bit tags. -/
theorem lt_tagBlockBound {b : ℕ} (hb : b < m.blocksCount) : b < tagBlockBound t.is64 := by
  have hlt := m.blocksCount_lt
  have hsup := h.supported
  simp only [supportedFormat, Bool.and_eq_true, Bool.not_eq_true', Bool.and_eq_false_iff,
    Bool.not_eq_false', h.incompat] at hsup
  rw [tagBlockBound]
  rcases hsup.2 with h32 | h64
  · rw [h32] at hlt
    simp only [Bool.false_eq_true, if_false] at hlt
    split <;> omega
  · rw [if_pos (show t.is64 = true from h64)]
    split at hlt <;> omega

end

end Superblock

theorem nextSequence_lt (s : ℕ) : nextSequence s < 2 ^ 32 := mod_lt _ (by decide)

variable {t : Journal} {d : Disk} {sb : Image}

theorem initJournal_clean (hread : readLog m d 0 = some sb) (h : Superblock m t 0 sb) :
    initJournal m d = (some (loadJournal sb), d) := by
  simp [initJournal, hread, h.supported, h.start]

theorem initJournal_dirty {start : ℕ}
    {txns : List Txn} (hro : m.readOnly = false) (hread : readLog m d 0 = some sb)
    (h : Superblock m t start sb) (hstart : start ≠ 0)
    (hlog : WellFormedLog m (logArea sb) (readLog m d) txns) : initJournal m d =
      (some { loadJournal sb with sequence := nextSequence (sSequence sb) },
        update (writeAll (logWrites (logRevoked (sSequence sb) txns) (sSequence sb) txns) d)
          (m.journalMap 0)
          (setStart (setSequence sb (nextSequence (sSequence sb))) 0)) := by
  have hrec := recoverJournal_eq hlog
  simp only [initJournal, hread, h.supported, h.start, hstart, hro, hrec]
  rfl

/-! ## What a commit writes -/

def IsHome (m : Mount) (journalBlocks b : ℕ) : Prop := ∀ p < journalBlocks, m.journalMap p ≠ b

instance (m : Mount) (journalBlocks b : ℕ) : Decidable (IsHome m journalBlocks b) :=
  inferInstanceAs (Decidable (∀ p < journalBlocks, m.journalMap p ≠ b))

/-- A closed set: distinct home blocks of the volume. -/
structure ClosedSet (m : Mount) (journalBlocks : ℕ) (closed : List Entry) : Prop where
  nodup : (closed.map Prod.fst).Nodup
  bounded : ∀ e ∈ closed, e.1 < m.blocksCount
  home : ∀ e ∈ closed, IsHome m journalBlocks e.1

/-- The superblock that publishes the log head. -/
def publishedSb (m : Mount) (t : Journal) (d : Disk) : Image :=
  setStart (d (m.journalMap 0)) t.startBlock

def retiredSb (m : Mount) (t : Journal) (d : Disk) : Image :=
  setStart (setSequence (publishedSb m t d) (nextSequence t.sequence)) 0

abbrev commitLog (m : Mount) (t : Journal) (closed : List Entry) : List (ℕ × Image) :=
  logRecords t (tagCapacity m t.is64) closed

variable {ws : List (ℕ × Image)}

theorem writeAll_commitLog_superblock {closed : List Entry}
    (hmap : Mapped m t.journalBlocks (commitLog m t closed)) (hne : closed ≠ [])
    (hws : ws.Sublist (onDevice m (commitLog m t closed))) (d : Disk) :
    writeAll ws d (m.journalMap 0) = d (m.journalMap 0) := by
  apply writeAll_other
  intro w hw
  obtain ⟨r, hr, rfl⟩ := mem_map.mp (hws.mem hw)
  have hpos := (pos_of_mem_logRecords (tagCapacity_pos m t.is64) hne hr).1
  exact journalMap_ne_of_ne hmap hr (by omega)

theorem commitClosed_stages {closed : List Entry}
    (hne : closed ≠ []) (hok : (commitClosed m t closed d).ok = true) :
    Mapped m t.journalBlocks (commitLog m t closed) ∧ journalPhys m t.journalBlocks 0 ≠ 0 ∧
      ∃ log : Batches, log.flatten = onDevice m (commitLog m t closed) ∧
        commitClosed m t closed d =
          ⟨true, log ++ [[(m.journalMap 0, publishedSb m t d)]] ++ homeBatches closed [] ++
            [[(m.journalMap 0, retiredSb m t d)]],
            { t with sequence := nextSequence t.sequence }⟩ := by
  have hlen : ¬ closed.length = 0 := by simpa using hne
  have hcap := tagCapacity_pos m t.is64
  have hcap' : ¬ tagCapacity m t.is64 = 0 := by omega
  simp only [commitClosed, hlen, hcap', if_false] at hok ⊢
  split_ifs at hok ⊢ with hchecks hscratch hpay hdesc
  simp only [not_or] at hchecks
  obtain ⟨-, hcommit, hsb⟩ := hchecks
  obtain ⟨hpflat, hpmap⟩ := payloadBatches_spec (by simpa using hpay)
  obtain ⟨hdflat, hdmap⟩ := descriptorBatches_spec (q := 0) hcap (by simpa using hdesc)
  rw [zero_mul] at hdflat
  have hphys := (journalPhys_ne_zero hcommit).1
  have hsbphys := (journalPhys_ne_zero hsb).1
  have hmapped : Mapped m t.journalBlocks (commitLog m t closed) :=
    (hpmap.append hdmap).append ((Mapped.nil _ _).cons hcommit)
  have hflat : ((payloadBatches m t.journalBlocks (tagCapacity m t.is64) 0 closed []).2 ++
      (descriptorBatches m t (tagCapacity m t.is64) closed.length 0 closed).2 ++
      [[(journalPhys m t.journalBlocks (payloadPos (closed.length - 1) (tagCapacity m t.is64) + 1),
        commitImage t)]]).flatten =
      onDevice m (commitLog m t closed) := by
    simp [hpflat, hdflat, logRecords, onDevice, commitPos, hphys]
  refine ⟨hmapped, hsb, _, hflat, ?_⟩
  rw [hflat, hsbphys, writeAll_commitLog_superblock hmapped hne (Sublist.refl _)]
  rfl

theorem commitClosed_ok_of_mapped {closed : List Entry} (d : Disk) (hs : m.scratch = true)
    (hsegs : (closed.length + tagCapacity m t.is64 - 1) / tagCapacity m t.is64 ≤ journalSegMax)
    (hmap : Mapped m t.journalBlocks (commitLog m t closed))
    (h0 : journalPhys m t.journalBlocks 0 ≠ 0) : (commitClosed m t closed d).ok = true := by
  have hcap := tagCapacity_pos m t.is64
  have hpay : Mapped m t.journalBlocks (payloadRecords (tagCapacity m t.is64) 0 closed) :=
    fun r hr => hmap r (mem_append_left _ (mem_append_left _ hr))
  have hdesc : Mapped m t.journalBlocks (descriptorRecords t (tagCapacity m t.is64) 0
      (segments (tagCapacity m t.is64) closed.length closed)) :=
    fun r hr => hmap r (mem_append_left _ (mem_append_right _ hr))
  have hcommit : journalPhys m t.journalBlocks
      (payloadPos (closed.length - 1) (tagCapacity m t.is64) + 1) ≠ 0 :=
    hmap (commitPos (tagCapacity m t.is64) closed.length, commitImage t) (by simp [logRecords])
  have hdok := descriptorBatches_ok hcap hdesc
  rw [zero_mul] at hdok
  simp only [commitClosed, payloadBatches_ok hpay, hdok, hs, Bool.true_eq_false, if_false]
  split_ifs with _ hzero hchecks
  · rfl
  · omega
  · rcases hchecks with h | h | h
    · exact absurd hsegs (Nat.not_le_of_lt h)
    · exact absurd h hcommit
    · exact absurd h h0
  · rfl

/-! ## The log between commits -/

/-- How many transactions before `s` the number `q` was in use, in 32-bit arithmetic. -/
def age (s q : ℕ) : ℕ := (s + 2 ^ 32 - q) % 2 ^ 32

variable {s : ℕ}

theorem age_nextSequence_le {q : ℕ} (hq : q < 2 ^ 32) : age (nextSequence s) q ≤ age s q + 1 := by
  simp only [age, nextSequence]
  omega

theorem age_self (s : ℕ) : age s s = 0 := by
  simp only [age]
  omega

theorem age_self_next (hs : s < 2 ^ 32) : age (nextSequence s) s = 1 := by
  simp only [age, nextSequence]
  omega

theorem age_next (hs : s < 2 ^ 32) : age s (nextSequence s) = 2 ^ 32 - 1 := by
  simp only [age, nextSequence]
  omega

/-- The journal blocks of the given kind that are left in the log are at most `bound`
transactions old. -/
def StaleWithin (kind : ℕ → Prop) (m : Mount) (journalBlocks : ℕ) (d : Disk) (s bound : ℕ) : Prop :=
  ∀ p, 0 < p → p < journalBlocks → ∀ b, readLog m d p = some b →
    (header b).magic = magicNumber → kind (header b).blocktype → age s (header b).sequence ≤ bound

def AnyBlock (_ : ℕ) : Prop := True

/-- The kind of block that ends a transaction. -/
def IsCommit (blocktype : ℕ) : Prop := blocktype = commitBlock

structure Clean (kind : ℕ → Prop) (m : Mount) (t : Journal) (d : Disk) (bound : ℕ) : Prop where
  journalBlocks_ne : t.journalBlocks ≠ 0
  superblock : ∃ sb, readLog m d 0 = some sb ∧ Superblock m t 0 sb
  stale : StaleWithin kind m t.journalBlocks d t.sequence bound

variable {p : ℕ}

theorem readLog_eq_some {b : Image} (h : readLog m d p = some b) :
    m.journalMap p ≠ 0 ∧ m.journalMap p < m.blocksCount ∧ d (m.journalMap p) = b := by
  simp only [readLog] at h
  split at h
  · simp at h
  · exact ⟨by omega, by omega, some.inj h⟩

/-- Writes outside the log do not change what is read from it. -/
theorem readLog_writeAll_home {journalBlocks : ℕ}
    (hws : ∀ w ∈ ws, IsHome m journalBlocks w.1) (hp : p < journalBlocks) (d : Disk) :
    readLog m (writeAll ws d) p = readLog m d p := by
  simp only [readLog]
  rw [writeAll_other fun w hw h => hws w hw p hp h.symm]

/-- Writing the superblock does not change the rest of the log. -/
theorem readLog_update_superblock (hp : 0 < p) (h0 : m.journalMap 0 ≠ 0) (d : Disk) (sb : Image) :
    readLog m (update d (m.journalMap 0) sb) p = readLog m d p := by
  have hne : m.journalMap p ≠ m.journalMap 0 := by
    intro h
    have := m.journalMap_inj 0 p h0 h.symm
    omega
  simp only [readLog]
  rw [update_of_ne hne]

/-- Home blocks are not among the device writes of records. -/
theorem writeAll_onDevice_home {journalBlocks b : ℕ} {rs : List (ℕ × Image)}
    (hj : journalBlocks ≠ 0) (hmap : Mapped m journalBlocks rs) (hws : ws.Sublist (onDevice m rs))
    (hb : IsHome m journalBlocks b) (d : Disk) : writeAll ws d b = d b := by
  apply writeAll_other
  intro w hw
  obtain ⟨r, hr, rfl⟩ := mem_map.mp (hws.mem hw)
  exact hb r.1 ((journalPhys_ne_zero (hmap r hr)).2.2.2 hj)

section Published

variable {kind : ℕ → Prop} {closed : List Entry} {d' : Disk} {bound : ℕ}

theorem avoidsLog_commitTxn (hset : ClosedSet m t.journalBlocks closed) {l : LogArea}
    (hl : l.journalBlocks = t.journalBlocks) :
    AvoidsLog m l (itemsTags (commitTxn (tagCapacity m t.is64) closed)) := by
  intro g hg p hp
  rw [hl] at hp
  obtain ⟨i, hi, hgi⟩ := mem_flatMap.mp hg
  obtain ⟨s, hs, rfl⟩ := mem_map.mp hi
  obtain ⟨e, he, hge⟩ := targets_segmentTags hgi
  have hmem : e ∈ closed := by
    rw [← flatten_segments (tagCapacity_pos m t.is64) (le_refl closed.length)]
    exact mem_flatten.mpr ⟨s, hs, he⟩
  rw [hge]
  exact hset.home e hmem p hp

/-- All home blocks of the set are as before, or all are as committed, and no other home
block has changed. -/
def Atomic (m : Mount) (journalBlocks : ℕ) (closed : List Entry) (d d' : Disk) : Prop :=
  ((∀ e ∈ closed, d' e.1 = d e.1) ∨ ∀ e ∈ closed, d' e.1 = e.2) ∧
    ∀ b, IsHome m journalBlocks b → (∀ e ∈ closed, e.1 ≠ b) → d' b = d b

/-- The device once the log head is published. -/
def publishedDisk (m : Mount) (t : Journal) (closed : List Entry) (d : Disk) : Disk :=
  update (writeAll (onDevice m (commitLog m t closed)) d) (m.journalMap 0) (publishedSb m t d)

def committedDisk (m : Mount) (t : Journal) (closed : List Entry) (d : Disk) : Disk :=
  update (writeAll closed (publishedDisk m t closed d)) (m.journalMap 0) (retiredSb m t d)

/-- A set that fits the log is committed over a clean one. -/
structure Committing (kind : ℕ → Prop) (m : Mount) (t : Journal) (closed : List Entry) (d : Disk)
    (bound : ℕ) : Prop where
  clean : Clean kind m t d bound
  start : t.startBlock = 1
  set : ClosedSet m t.journalBlocks closed
  ne : closed ≠ []
  mapped : Mapped m t.journalBlocks (commitLog m t closed)

namespace Committing

variable (C : Committing kind m t closed d bound)
include C

theorem commitPos_lt : commitPos (tagCapacity m t.is64) closed.length < t.journalBlocks := by
  have hcommit : (commitPos (tagCapacity m t.is64) closed.length, commitImage t) ∈
      commitLog m t closed := by simp [logRecords]
  exact (journalPhys_ne_zero (C.mapped _ hcommit)).2.2.2 C.clean.journalBlocks_ne

theorem superblock_published : Superblock m t 1 (publishedSb m t d) := by
  obtain ⟨sb, hread, hsb⟩ := C.clean.superblock
  rw [publishedSb, (readLog_eq_some hread).2.2, C.start]
  exact hsb.setStart 1 (by decide)

theorem superblock_retired :
    Superblock m { t with sequence := nextSequence t.sequence } 0 (retiredSb m t d) :=
  (C.superblock_published.setSequence _ (nextSequence_lt _)).setStart 0 (by decide)

theorem publishedDisk_home {b : ℕ} (hb : IsHome m t.journalBlocks b) :
    publishedDisk m t closed d b = d b := by
  have hpos := pos_of_ne_zero C.clean.journalBlocks_ne
  rw [publishedDisk, update_of_ne (hb 0 hpos).symm,
    writeAll_onDevice_home C.clean.journalBlocks_ne C.mapped (Sublist.refl _) hb]

/-- A stop before the log head is published leaves a clean log. -/
theorem clean_unpublished (hws : ws.Sublist (onDevice m (commitLog m t closed))) :
    Clean kind m t (writeAll ws d) bound := by
  obtain ⟨sb, hread, hsb⟩ := C.clean.superblock
  refine ⟨C.clean.journalBlocks_ne, ⟨sb, ?_, hsb⟩, ?_⟩
  · rw [← hread]
    simp only [readLog]
    rw [writeAll_commitLog_superblock C.mapped C.ne hws]
  intro p hp hpj b hb hmagic hkind
  obtain ⟨h0, hlt, hval⟩ := readLog_eq_some hb
  rcases writeAll_cases ws d (m.journalMap p) with hold | ⟨w, hw, -, hnew⟩
  · refine C.clean.stale p hp hpj b ?_ hmagic hkind
    simp only [readLog]
    rw [if_neg (by omega), ← hold, hval]
  -- a block of the unfinished transaction
  obtain ⟨r, hr, rfl⟩ := mem_map.mp (hws.mem hw)
  have hbr : b = r.2 := hval.symm.trans hnew
  rw [hbr] at hmagic ⊢
  rw [sequence_of_mem_logRecords hsb.sequence_lt hr hmagic, age_self]
  exact zero_le _

/-- After the publish the log blocks are the records, whichever home writes have landed. -/
theorem readLog_published (hws : ws.Sublist closed) (hp : 0 < p)
    (hpj : p < t.journalBlocks) : readLog m (writeAll ws (publishedDisk m t closed d)) p =
      readLog m (writeAll (onDevice m (commitLog m t closed)) d) p := by
  obtain ⟨sb, hread, -⟩ := C.clean.superblock
  rw [readLog_writeAll_home (fun w hw => C.set.home w (hws.mem hw)) hpj]
  exact readLog_update_superblock hp (readLog_eq_some hread).1 _ _

theorem readLog_published_zero (hws : ws.Sublist closed) :
    readLog m (writeAll ws (publishedDisk m t closed d)) 0 = some (publishedSb m t d) := by
  obtain ⟨sb, hread, -⟩ := C.clean.superblock
  obtain ⟨h0, hlt0, -⟩ := readLog_eq_some hread
  have hpos := pos_of_ne_zero C.clean.journalBlocks_ne
  rw [readLog_writeAll_home (fun w hw => C.set.home w (hws.mem hw)) hpos]
  simp only [readLog, publishedDisk, update_self]
  rw [if_neg (by omega)]

theorem readLog_committedDisk_zero :
    readLog m (committedDisk m t closed d) 0 = some (retiredSb m t d) := by
  obtain ⟨sb, hread, -⟩ := C.clean.superblock
  obtain ⟨h0, hlt0, -⟩ := readLog_eq_some hread
  simp only [readLog, committedDisk, update_self]
  rw [if_neg (by omega)]

/-- Once the log head is published, the log starts with the transaction. -/
theorem txnAt_published (hws : ws.Sublist closed) : TxnAt m (logArea (publishedSb m t d))
    (readLog m (writeAll ws (publishedDisk m t closed d))) t.sequence 1
    (commitTxn (tagCapacity m t.is64) closed) := by
  have hcap := tagCapacity_pos m t.is64
  have hsb := C.superblock_published
  have hseq := hsb.sequence_lt
  have hlt := C.commitPos_lt
  -- every record reads back from the device
  have hrec : ∀ r ∈ commitLog m t closed,
      readLog m (writeAll ws (publishedDisk m t closed d)) r.1 = some r.2 := by
    intro r hr
    have hpos := pos_of_mem_logRecords hcap C.ne hr
    rw [C.readLog_published hws (by omega) (by omega)]
    exact readLog_of_mem C.mapped (nodup_logRecords hcap C.ne) hr d
  have hitems : ItemsAt m (logArea (publishedSb m t d))
      (readLog m (writeAll ws (publishedDisk m t closed d))) t.sequence
      (1 + 0 * (tagCapacity m t.is64 + 1)) (commitTxn (tagCapacity m t.is64) closed) := by
    refine itemsAt_of_records hseq hsb.is64_eq le_rfl ?_ ?_ ?_
    · exact fun e he => ⟨C.set.bounded e he, hsb.lt_tagBlockBound (C.set.bounded e he)⟩
    · intro r hr
      rw [zero_mul] at hr
      exact hrec r (mem_append_left _ (mem_append_left _ hr))
    · exact fun r hr => hrec r (mem_append_left _ (mem_append_right _ hr))
  rw [zero_mul] at hitems
  refine ⟨hitems, commitImage t, ?_, header_putHeader _ (by decide) hseq⟩
  rw [one_add_itemsSize_commitTxn hcap C.ne]
  exact hrec (commitPos (tagCapacity m t.is64) closed.length, commitImage t) (by simp [logRecords])

/-- Nothing after the published transaction looks committed. -/
theorem wellFormedLog_published (hkind : kind commitBlock) (hbound : bound < 2 ^ 32 - 1)
    (hws : ws.Sublist closed) : WellFormedLog m (logArea (publishedSb m t d))
    (readLog m (writeAll ws (publishedDisk m t closed d)))
    [commitTxn (tagCapacity m t.is64) closed] := by
  have hcap := tagCapacity_pos m t.is64
  have hlt := C.commitPos_lt
  have hthree : 3 ≤ commitPos (tagCapacity m t.is64) closed.length := by
    rw [commitPos, payloadPos, add_assoc 2]
    exact succ_le_succ (le_add_right 2 _)
  have hsize := one_add_itemsSize_commitTxn hcap C.ne
  have hsb := C.superblock_published
  have hblocks : (logArea (publishedSb m t d)).journalBlocks = t.journalBlocks := hsb.maxlen
  have hstart : (logArea (publishedSb m t d)).start = 1 := hsb.start
  have hsequence : (logArea (publishedSb m t d)).sequence = t.sequence := hsb.sequence
  refine ⟨?_, ?_, by simp, ?_, ?_, ?_, ?_⟩
  · rw [hstart]
    exact one_pos
  · omega
  · rw [hstart, hsequence]
    exact ⟨C.txnAt_published hws, trivial⟩
  · rw [logSize_cons, logSize_nil]
    omega
  · right
    intro p hp hpj b hb
    rw [logSize_cons] at hp
    rw [hblocks] at hpj
    rw [hsequence]
    intro hh
    -- the block was there before the commit
    have hold : readLog m d p = some b := by
      rw [← hb, C.readLog_published hws (by omega) hpj]
      refine (readLog_of_not_mem C.mapped (fun r hr => ?_) d).symm
      have := pos_of_mem_logRecords hcap C.ne hr
      omega
    have hage := C.clean.stale p (by omega) hpj b hold (by rw [hh]) (by rw [hh]; exact hkind)
    rw [hh] at hage
    simp only [sequenceAfter, age_next hsb.sequence_lt] at hage
    omega
  · intro u hu
    rw [mem_singleton.mp hu]
    exact avoidsLog_commitTxn C.set hblocks

theorem mount_unpublished (hws : ws.Sublist (onDevice m (commitLog m t closed))) :
    ∃ t' d'', initJournal m (writeAll ws d) = (some t', d'') ∧
      Atomic m t.journalBlocks closed d d'' := by
  obtain ⟨sb, hread, hsb⟩ := (C.clean_unpublished hws).superblock
  have hhome : ∀ b, IsHome m t.journalBlocks b → writeAll ws d b = d b := fun b hb =>
    writeAll_onDevice_home C.clean.journalBlocks_ne C.mapped hws hb d
  refine ⟨_, _, initJournal_clean hread hsb, .inl fun e he => ?_, fun b hb _ => ?_⟩
  · exact hhome e.1 (C.set.home e he)
  · exact hhome b hb

/-- A stop after the log head is published is repaired by replaying the log. -/
theorem mount_published (hkind : kind commitBlock) (hro : m.readOnly = false)
    (hbound : bound < 2 ^ 32 - 1) (hws : ws.Sublist closed) :
    ∃ t' d'', initJournal m (writeAll ws (publishedDisk m t closed d)) = (some t', d'') ∧
      Atomic m t.journalBlocks closed d d'' := by
  have hpos := pos_of_ne_zero C.clean.journalBlocks_ne
  have hinit := initJournal_dirty hro (C.readLog_published_zero hws) C.superblock_published
    one_ne_zero (C.wellFormedLog_published hkind hbound hws)
  rw [logWrites_commitTxn (tagCapacity_pos m t.is64)] at hinit
  refine ⟨_, _, hinit, .inr fun e he => ?_, fun b hb hother => ?_⟩
  · rw [update_of_ne (C.set.home e he 0 hpos).symm, writeAll_of_mem C.set.nodup he]
  · rw [update_of_ne (hb 0 hpos).symm, writeAll_other hother,
      writeAll_other fun w hw => hother w (hws.mem hw), C.publishedDisk_home hb]

theorem mount_committed : ∃ t' d'', initJournal m (committedDisk m t closed d) = (some t', d'') ∧
      Atomic m t.journalBlocks closed d d'' := by
  have hpos := pos_of_ne_zero C.clean.journalBlocks_ne
  refine ⟨_, _, initJournal_clean C.readLog_committedDisk_zero C.superblock_retired,
    .inr fun e he => ?_, fun b hb hother => ?_⟩
  · rw [committedDisk, update_of_ne (C.set.home e he 0 hpos).symm, writeAll_of_mem C.set.nodup he]
  · rw [committedDisk, update_of_ne (hb 0 hpos).symm, writeAll_other hother,
      C.publishedDisk_home hb]

end Committing

theorem crashState_commit (hne : closed ≠ []) (hok : (commitClosed m t closed d).ok = true)
    (hcrash : CrashState d (commitClosed m t closed d).batches d') :
    (∃ ws, ws.Sublist (onDevice m (commitLog m t closed)) ∧ d' = writeAll ws d) ∨
      (∃ ws, ws.Sublist closed ∧ d' = writeAll ws (publishedDisk m t closed d)) ∨
      d' = committedDisk m t closed d := by
  obtain ⟨-, -, log, hflat, hcommit⟩ := commitClosed_stages hne hok
  rw [hcommit] at hcrash
  have hunpub : writeAll log.flatten d =
      writeAll (onDevice m (commitLog m t closed)) d := by rw [hflat]
  have hpub : writeAll (log ++ [[(m.journalMap 0, publishedSb m t d)]]).flatten d =
      publishedDisk m t closed d := by
    rw [flatten_append, writeAll_append, hunpub]
    rfl
  have hall : writeAll (log ++ [[(m.journalMap 0, publishedSb m t d)]] ++
      homeBatches closed []).flatten d = writeAll closed (publishedDisk m t closed d) := by
    rw [flatten_append, writeAll_append, hpub, flatten_homeBatches, nil_append]
  rcases hcrash.append with hcrash | hcrash
  swap
  · rw [hall] at hcrash
    rcases hcrash.single with rfl | rfl
    · exact .inr (.inl ⟨closed, Sublist.refl _, rfl⟩)
    · exact .inr (.inr rfl)
  rcases hcrash.append with hcrash | hcrash
  · rcases hcrash.append with hcrash | hcrash
    · left
      rw [← hflat]
      exact hcrash.exists_sublist
    rw [hunpub] at hcrash
    rcases hcrash.single with rfl | rfl
    · exact .inl ⟨_, Sublist.refl _, rfl⟩
    · exact .inr (.inl ⟨[], nil_sublist _, rfl⟩)
  · rw [hpub] at hcrash
    obtain ⟨ws, hws, rfl⟩ := hcrash.exists_sublist
    rw [flatten_homeBatches] at hws
    exact .inr (.inl ⟨ws, hws, rfl⟩)

/-- **A commit is atomic**: after a stop at any point of a commit over a clean log, the
next mount leaves the old images or the new ones. -/
theorem Committing.atomic (C : Committing kind m t closed d bound) (hkind : kind commitBlock)
    (hro : m.readOnly = false) (hbound : bound < 2 ^ 32 - 1)
    (hok : (commitClosed m t closed d).ok = true)
    (hcrash : CrashState d (commitClosed m t closed d).batches d') :
    ∃ t' d'', initJournal m d' = (some t', d'') ∧ Atomic m t.journalBlocks closed d d'' := by
  rcases crashState_commit C.ne hok hcrash with ⟨ws, hws, rfl⟩ | ⟨ws, hws, rfl⟩ | rfl
  · exact C.mount_unpublished hws
  · exact C.mount_published hkind hro hbound hws
  · exact C.mount_committed

theorem writeAll_commitClosed (hne : closed ≠ []) (hok : (commitClosed m t closed d).ok = true) :
    writeAll (commitClosed m t closed d).batches.flatten d = committedDisk m t closed d := by
  obtain ⟨-, -, log, hflat, hcommit⟩ := commitClosed_stages hne hok
  rw [hcommit]
  simp only [flatten_append, writeAll_append, hflat, flatten_homeBatches]
  rfl

/-- A complete commit leaves a clean log, and one more transaction in it. -/
theorem clean_of_commit (hclean : Clean kind m t d bound) (hstart : t.startBlock = 1)
    (hset : ClosedSet m t.journalBlocks closed) (hok : (commitClosed m t closed d).ok = true) :
    Clean kind m (commitClosed m t closed d).journal
      (writeAll (commitClosed m t closed d).batches.flatten d) (bound + 1) := by
  by_cases hne : closed = []
  · subst hne
    exact ⟨hclean.journalBlocks_ne, hclean.superblock,
      fun p hp hpj b hb h1 h2 => (hclean.stale p hp hpj b hb h1 h2).trans (le_succ _)⟩
  obtain ⟨hmap, -, log, -, hcommit⟩ := commitClosed_stages hne hok
  obtain ⟨sb, hread, hsb⟩ := hclean.superblock
  obtain ⟨h0, -, -⟩ := readLog_eq_some hread
  have hcap := tagCapacity_pos m t.is64
  have C : Committing kind m t closed d bound := ⟨hclean, hstart, hset, hne, hmap⟩
  rw [writeAll_commitClosed hne hok, hcommit]
  refine ⟨hclean.journalBlocks_ne, ⟨_, C.readLog_committedDisk_zero, C.superblock_retired⟩, ?_⟩
  intro p hp hpj b hb hmagic htype
  rw [committedDisk, readLog_update_superblock hp h0, readLog_writeAll_home hset.home hpj,
    publishedDisk, readLog_update_superblock hp h0] at hb
  simp only
  by_cases hin : ∃ r ∈ commitLog m t closed, r.1 = p
  · -- a block of this transaction
    obtain ⟨r, hr, rfl⟩ := hin
    rw [readLog_of_mem hmap (nodup_logRecords hcap hne) hr] at hb
    cases hb
    rw [sequence_of_mem_logRecords hsb.sequence_lt hr hmagic, age_self_next hsb.sequence_lt]
    omega
  -- a block from before
  rw [readLog_of_not_mem hmap fun r hr h => hin ⟨r, hr, h⟩] at hb
  have hq : (header b).sequence < 2 ^ 32 := getBe_lt b 8 4
  have hold := hclean.stale p hp hpj b hb hmagic htype
  have hnext := age_nextSequence_le (s := t.sequence) hq
  omega

end Published

/-! ## Runs of commits -/

/-- What a clean mount, commits and writes outside the log can lead to.  `oldest` bounds
the age of the commit records the mount found, `k` counts the commits since. -/
inductive Reach (m : Mount) (oldest : ℕ) : ℕ → Journal → Disk → Prop
  | mount {d : Disk} {t : Journal} {sb : Image} (hsb : readLog m d 0 = some sb)
      (hstart : sStart sb = 0) (hinit : initJournal m d = (some t, d))
      (hblocks : t.journalBlocks ≠ 0)
      (hstale : StaleWithin IsCommit m t.journalBlocks d t.sequence oldest) : Reach m oldest 0 t d
  | write {k : ℕ} {t : Journal} {d : Disk} (h : Reach m oldest k t d) {b : ℕ}
      (hb : IsHome m t.journalBlocks b) (image : Image) :
      Reach m oldest k t (update d b image)
  /-- A handle starts and the closed set is committed. -/
  | commit {k : ℕ} {t : Journal} {d : Disk} (h : Reach m oldest k t d) {closed : List Entry}
      (hset : ClosedSet m t.journalBlocks closed)
      (hok : (commitClosed m (startHandle t) closed d).ok = true) :
      Reach m oldest (k + 1) (commitClosed m (startHandle t) closed d).journal
        (writeAll (commitClosed m (startHandle t) closed d).batches.flatten d)

variable {kind : ℕ → Prop}

theorem Clean.startHandle {bound : ℕ}
    (h : Clean kind m t d bound) : Clean kind m (startHandle t) d bound := by
  obtain ⟨sb, hread, hsb⟩ := h.superblock
  exact ⟨h.journalBlocks_ne,
    ⟨sb, hread, hsb.supported, hsb.sequence, hsb.maxlen, hsb.incompat, hsb.start⟩, h.stale⟩

theorem Clean.write {bound b : ℕ}
    (h : Clean kind m t d bound) (hb : IsHome m t.journalBlocks b) (image : Image) :
    Clean kind m t (update d b image) bound := by
  have hkeep : ∀ p < t.journalBlocks, readLog m (update d b image) p = readLog m d p := by
    intro p hp
    simp only [readLog]
    rw [update_of_ne (hb p hp)]
  obtain ⟨sb, hread, hsb⟩ := h.superblock
  refine ⟨h.journalBlocks_ne, ⟨sb, ?_, hsb⟩, ?_⟩
  · rw [hkeep 0 (pos_of_ne_zero h.journalBlocks_ne)]
    exact hread
  intro p hp hpj c hc
  rw [hkeep p hpj] at hc
  exact h.stale p hp hpj c hc

theorem superblock_of_initJournal (hread : readLog m d 0 = some sb) (hstart : sStart sb = 0)
    (hinit : initJournal m d = (some t, d)) : Superblock m t 0 sb := by
  simp only [initJournal, hread] at hinit
  split at hinit
  · rename_i hsup
    simp only [Prod.mk.injEq, some.injEq, and_true] at hinit
    subst hinit
    exact ⟨hsup, rfl, rfl, rfl, hstart⟩
  · simp at hinit

theorem Reach.clean {oldest k : ℕ}
    (h : Reach m oldest k t d) : Clean IsCommit m t d (oldest + k) := by
  induction h with
  | mount hsb hstart hinit hblocks hstale =>
    exact ⟨hblocks, ⟨_, hsb, superblock_of_initJournal hsb hstart hinit⟩, hstale⟩
  | write _ hb image ih => exact ih.write hb image
  | commit _ hset hok ih => exact clean_of_commit ih.startHandle rfl hset hok

/-! ## A stale transaction that looks like the next one -/

namespace StaleLog

open WrappedLog (mount ones txn)

open WrappedLog

/-- Four blocks fill the log up to the stale transaction. -/
def closed : List Entry := [(60, ones), (61, ones), (62, ones), (51, zero)]

theorem closed_ne : closed ≠ [] := by simp [closed]

theorem closedSet : ClosedSet mount 16 closed := by
  refine ⟨by decide, ?_, ?_⟩
  · have h : ∀ b ∈ closed.map Prod.fst, b < mount.blocksCount := by decide
    exact fun e he => h e.1 (mem_map_of_mem he)
  · have h : ∀ b ∈ closed.map Prod.fst, IsHome mount 16 b := by decide
    exact fun e he => h e.1 (mem_map_of_mem he)

/-- The commit of the four blocks stops after the log head is published. -/
def stopped (t : Journal) (d : Disk) : Disk :=
  writeAll ((commitClosed mount (startHandle t) closed d).batches.take 4).flatten d

theorem crashState (t : Journal) (d : Disk) :
    CrashState d (commitClosed mount (startHandle t) closed d).batches (stopped t d) := by
  have hstop := CrashState.between d ((commitClosed mount (startHandle t) closed d).batches.take 4)
    ((commitClosed mount (startHandle t) closed d).batches.drop 4)
  rwa [take_append_drop] at hstop

/-- A clean journal superblock: sixteen blocks, next transaction 7. -/
def superblock : Image :=
  putBe (putBe (putBe (putBe (putHeader zero superblockV2 0) 12 4 1024) 16 4 16) 20 4 1) 24 4 7

/-- The log still holds a transaction numbered 8 in blocks 7, 8 and 9. -/
def disk : Disk := fun b =>
  if b = 10 then superblock
  else if b = 17 then descriptor 8 51
  else if b = 18 then ones
  else if b = 19 then putHeader zero commitBlock 8
  else zero

theorem superblock_spec : Superblock mount (loadJournal superblock) 0 superblock :=
  ⟨by decide, rfl, rfl, rfl, by decide⟩

/-- The mount is clean, and nothing bounds the age of what is in the log. -/
theorem reach : Reach mount (2 ^ 32) 0 (loadJournal superblock) disk := by
  have hread : readLog mount disk 0 = some superblock := readLog_eq disk 0 (by decide)
  refine .mount hread superblock_spec.start (initJournal_clean hread superblock_spec) (by decide) ?_
  intro p _ _ b _ _ _
  exact (mod_lt _ (by decide)).le

/-- The same volume without the stale commit record. -/
def freshDisk : Disk := update disk 19 zero

theorem reach_fresh : Reach mount 0 0 (loadJournal superblock) freshDisk := by
  have hread : readLog mount freshDisk 0 = some superblock := readLog_eq freshDisk 0 (by decide)
  refine .mount hread superblock_spec.start (initJournal_clean hread superblock_spec) (by decide) ?_
  intro p hp hpj b hb hmagic htype
  have hnone : ∀ p < 16, 0 < p → (header (freshDisk (10 + p))).magic = magicNumber →
      (header (freshDisk (10 + p))).blocktype ≠ commitBlock := by decide
  have hlt : p < 16 := hpj
  rw [← readLog_inj (by omega) hb] at hmagic htype
  exact absurd htype (hnone p hlt hp hmagic)

end StaleLog

open StaleLog

/-- After a clean mount of a log that still holds a transaction numbered one above the
next, a stop inside the first commit makes recovery write an image that is neither the
old one nor the committed one. -/
theorem commitClosed_replays_stale :
    ∃ (m : Mount) (t : Journal) (d : Disk) (closed : List Entry) (d' : Disk),
      m.readOnly = false ∧ Reach m (2 ^ 32) 0 t d ∧ closed ≠ [] ∧
      ClosedSet m t.journalBlocks closed ∧
      (commitClosed m (startHandle t) closed d).ok = true ∧
      CrashState d (commitClosed m (startHandle t) closed d).batches d' ∧
      ¬ ∃ t' d'', initJournal m d' = (some t', d'') ∧ Atomic m t.journalBlocks closed d d'' := by
  refine ⟨WrappedLog.mount, loadJournal superblock, disk, closed, _, rfl, reach, closed_ne,
    closedSet, by decide, crashState _ disk, ?_⟩
  -- the next mount takes the stale transaction for the one after the new transaction
  have heval : (initJournal WrappedLog.mount (stopped (loadJournal superblock) disk)).2 60 0 = 1 ∧
      (initJournal WrappedLog.mount (stopped (loadJournal superblock) disk)).2 51 0 = 1 := by
    decide +kernel
  rintro ⟨t', d'', hinit, hold | hnew, -⟩ <;> rw [hinit] at heval
  · have h60 := congrFun (hold (60, WrappedLog.ones) (by simp [closed])) 0
    exact absurd (heval.1.symm.trans h60) (by decide)
  · have h51 := congrFun (hnew (51, zero) (by simp [closed])) 0
    exact absurd (heval.2.symm.trans h51) (by decide)

/-- **Crash atomicity of the journal.**  As long as the 32-bit sequence numbers have not
come round to the oldest commit record in the log, a stop anywhere inside a commit leaves
a device from which the next mount recovers all of the set or none of it. -/
theorem commitClosed_crash_atomic (m : Mount) (hro : m.readOnly = false) (oldest k : ℕ)
    (t : Journal) (d : Disk) (hreach : Reach m oldest k t d) (hage : oldest + k < 2 ^ 32 - 1)
    (closed : List Entry) (hne : closed ≠ []) (hset : ClosedSet m t.journalBlocks closed)
    (hok : (commitClosed m (startHandle t) closed d).ok = true) (d' : Disk)
    (hcrash : CrashState d (commitClosed m (startHandle t) closed d).batches d') :
    ∃ t' d'', initJournal m d' = (some t', d'') ∧ Atomic m t.journalBlocks closed d d'' := by
  have hmap := (commitClosed_stages hne hok).1
  have C : Committing IsCommit m (startHandle t) closed d (oldest + k) :=
    ⟨hreach.clean.startHandle, rfl, hset, hne, hmap⟩
  exact C.atomic rfl hro hage hok hcrash

/-- The machine stops once the log head is published, with no block at its home yet. -/
theorem commitClosed_crash_atomic_fresh :
    ∃ t' d'', initJournal WrappedLog.mount (stopped (loadJournal superblock) freshDisk) =
        (some t', d'') ∧
      Atomic WrappedLog.mount (loadJournal superblock).journalBlocks closed freshDisk d'' :=
  commitClosed_crash_atomic WrappedLog.mount rfl 0 0 (loadJournal superblock) freshDisk reach_fresh
    (by decide) closed closed_ne closedSet (by decide) _ (crashState _ freshDisk)

end AvoryOS.Ext3
