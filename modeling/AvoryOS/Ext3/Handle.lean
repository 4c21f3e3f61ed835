import AvoryOS.Ext3.Crash
import Mathlib.Logic.Relation
import Mathlib.Data.Finset.Card
import Mathlib.Data.List.Dedup

/-!
# Handles and group commit

A handle stages images in the running set.  When it stops, the running set is merged into
the closed set, which is committed at once or left for a later handle to commit.

The room a handle needs in the log is checked when a block is staged, for the running set
alone.  `handles_fit_iff` says for which journals this is enough: those whose log holds the
largest write-set that can be merged, and those too short for any.
-/

namespace AvoryOS.Ext3

open Bytes Device List WrappedLog

/-- The write-sets of `ext3_journal_state_t`, with the journal and the device. -/
structure Store where
  journal : Journal
  disk : Disk
  running : List Entry
  closed : List Entry
  closedHandles : ℕ
  ioFailed : Bool

/-! ## Operations -/

def setImage (es : List Entry) (b : ℕ) (image : Image) : List Entry :=
  es.map fun e => if e.1 = b then (b, image) else e

def staged (es : List Entry) (b : ℕ) : Bool := es.any fun e => e.1 == b

/-- `ext3_journal_block` for the owner of the transaction.  `unchanged` says that the block
cache holds a completed image equal to `image`. -/
def journalBlock (m : Mount) (unchanged : Bool) (s : Store) (block : ℕ) (image : Image) :
    Bool × Store :=
  let tagcap := tagCapacity m s.journal.is64
  let index := s.running.length
  let phys := journalPhys m s.journal.journalBlocks
  if s.ioFailed then (false, s)
  else if m.blocksCount ≤ block ∨ 2 ^ 32 ≤ block ∧ s.journal.is64 = false then
    (false, { s with ioFailed := true })
  else if staged s.running block then
    (true, { s with running := setImage s.running block image })
  else if unchanged && !staged s.closed block then (true, s)
  else if tagcap = 0 ∨ journalSegMax * tagcap ≤ index then (false, { s with ioFailed := true })
  else if phys (payloadPos index tagcap) = 0 ∨ phys (descPos index tagcap) = 0 ∨
      phys (2 + (index + 1) + (index / tagcap + 1) - 1) = 0 then
    (false, { s with ioFailed := true })
  else (true, { s with running := s.running ++ [(block, image)] })

/-- `ext3_commit_closed`, which always retires the closed set. -/
def commitStore (m : Mount) (s : Store) : Bool × Store :=
  let c := commitClosed m s.journal s.closed s.disk
  (c.ok, { s with
    journal := c.journal
    disk := writeAll c.batches.flatten s.disk
    closed := []
    closedHandles := 0
    ioFailed := s.ioFailed || !c.ok })

/-- Move one running image into the closed set, keeping the newest image of a block. -/
def mergeEntry (closed : List Entry) (e : Entry) : List Entry :=
  if staged closed e.1 then setImage closed e.1 e.2 else closed ++ [e]

def mergeEntries (closed running : List Entry) : List Entry := running.foldl mergeEntry closed

/-- `ext3_merge_running`: the chain is flushed first when the descriptors could not hold
both sets. -/
def mergeRunning (m : Mount) (s : Store) : Bool × Store :=
  let tagcap := tagCapacity m s.journal.is64
  if tagcap = 0 then (false, s)
  else if s.running.isEmpty then (true, s)
  else
    let flushed := if journalSegMax * tagcap < s.closed.length + s.running.length then
      commitStore m s else (true, s)
    if flushed.1 then
      (true, { flushed.2 with
        closed := mergeEntries flushed.2.closed flushed.2.running
        running := [] })
    else (false, flushed.2)

/-- `ext3_discard_write_set`. -/
def discardRunning (s : Store) : Store := { s with running := [] }

/-- What `ext3_journal_release_owner` does to the handle of a dead owner. -/
def abortStore (s : Store) : Store := { discardRunning s with ioFailed := true }

/-- `EXT3_GROUP_MAX_HANDLES`. -/
def groupMaxHandles : ℕ := 16

/-- `ext3_should_defer`.  `waiters` and `fresh` are what the wait queue and the clock say. -/
def shouldDefer (m : Mount) (waiters fresh : Bool) (s : Store) : Bool :=
  let tagcap := tagCapacity m s.journal.is64
  !s.closed.isEmpty && waiters && tagcap != 0 &&
    s.closed.length ≤ journalSegMax * tagcap / 4 && s.closedHandles < groupMaxHandles &&
    (s.closedHandles == 0 || fresh)

/-- The handle's changes to the write-sets when `ext3_journal_start` succeeds. -/
def startStore (s : Store) : Store :=
  { s with journal := startHandle s.journal, running := [], ioFailed := false }

/-! ## How handles follow one another -/

def OutsideLog (m : Mount) (journalBlocks b : ℕ) : Prop :=
  ∀ p, journalPhys m journalBlocks p ≠ 0 → m.journalMap p ≠ b

inductive Phase
  | idle
  /-- Between `ext3_journal_start` and the outermost `ext3_journal_stop`. -/
  | operation
  /-- Inside the outermost stop, past the merge. -/
  | stopping
  deriving DecidableEq, Repr

inductive HandleStep (m : Mount) : Phase × Store → Phase × Store → Prop
  | start (s : Store) : HandleStep m (.idle, s) (.operation, startStore s)
  | block (s : Store) (unchanged : Bool) (b : ℕ) (image : Image)
      (hb : OutsideLog m s.journal.journalBlocks b) :
      HandleStep m (.operation, s) (.operation, (journalBlock m unchanged s b image).2)
  /-- The handle is merged into the closed set. -/
  | merge (s : Store) (hio : s.ioFailed = false) (hok : (mergeRunning m s).1 = true) :
      HandleStep m (.operation, s) (.stopping, (mergeRunning m s).2)
  /-- The handle failed, or the merge did: only its own images are dropped. -/
  | fail (s : Store) : HandleStep m (.operation, s) (.stopping, discardRunning s)
  | mergeFail (s : Store) (hio : s.ioFailed = false) (hok : (mergeRunning m s).1 = false) :
      HandleStep m (.operation, s) (.stopping, discardRunning (mergeRunning m s).2)
  /-- The commit is left to a later handle. -/
  | defer (s : Store) (waiters fresh : Bool) (h : shouldDefer m waiters fresh s = true) :
      HandleStep m (.stopping, s) (.idle, { s with closedHandles := s.closedHandles + 1 })
  | commit (s : Store) : HandleStep m (.stopping, s) (.idle, (commitStore m s).2)
  /-- A cancelled waiter commits a chain before it passes its grant on. -/
  | forward (s : Store) : HandleStep m (.idle, s) (.idle, (commitStore m s).2)
  /-- `ext3_finish_transaction` drops what the handle may have left. -/
  | finish (s : Store) : HandleStep m (.idle, s) (.idle, discardRunning s)
  | abort (s : Store) (phase : Phase) : HandleStep m (phase, s) (.idle, abortStore s)

def mounted (t : Journal) (d : Disk) : Phase × Store := (.idle, ⟨t, d, [], [], 0, false⟩)

def HandleReach (m : Mount) (t : Journal) (d : Disk) : Phase × Store → Prop :=
  Relation.ReflTransGen (HandleStep m) (mounted t d)

theorem Journal.is64_congr {t t' : Journal} (h : t.incompat = t'.incompat) : t.is64 = t'.is64 := by
  rw [Journal.is64, h, Journal.is64]

/-! ## Write-sets -/

variable {es : List Entry} {b : ℕ}

theorem staged_eq_true : staged es b = true ↔ b ∈ es.map Prod.fst := by
  simp [staged]

theorem staged_eq_false : staged es b = false ↔ b ∉ es.map Prod.fst := by
  rw [← staged_eq_true, Bool.not_eq_true]

@[simp] theorem map_fst_setImage (es : List Entry) (b : ℕ) (image : Image) :
    (setImage es b image).map Prod.fst = es.map Prod.fst := by
  simp only [setImage, map_map]
  apply map_congr_left
  intro e _
  by_cases h : e.1 = b
  · simp [h]
  · simp [h]

/-- A write-set: distinct blocks of the volume, outside the log. -/
structure WriteSet (m : Mount) (journalBlocks : ℕ) (es : List Entry) : Prop where
  nodup : (es.map Prod.fst).Nodup
  bounded : ∀ b ∈ es.map Prod.fst, b < m.blocksCount
  outside : ∀ b ∈ es.map Prod.fst, OutsideLog m journalBlocks b

theorem WriteSet.nil (m : Mount) (journalBlocks : ℕ) : WriteSet m journalBlocks [] :=
  ⟨nodup_nil, by simp, by simp⟩

variable {m : Mount} {journalBlocks : ℕ}

theorem WriteSet.sublist {rs : List Entry} (h : WriteSet m journalBlocks es) (hs : rs.Sublist es) :
    WriteSet m journalBlocks rs :=
  ⟨h.nodup.sublist (hs.map _), fun b hb => h.bounded b ((hs.map _).mem hb),
    fun b hb => h.outside b ((hs.map _).mem hb)⟩

theorem WriteSet.setImage (h : WriteSet m journalBlocks es) (b : ℕ) (image : Image) :
    WriteSet m journalBlocks (setImage es b image) := by
  constructor <;> rw [map_fst_setImage]
  exacts [h.nodup, h.bounded, h.outside]

variable {e : Entry}

theorem nodup_concat (h : (es.map Prod.fst).Nodup) (hnew : staged es e.1 = false) :
    ((es ++ [e]).map Prod.fst).Nodup := by
  rw [staged_eq_false] at hnew
  rw [map_append]
  refine h.append (nodup_singleton _) ?_
  intro b hb hb'
  rw [map_cons, map_nil, mem_singleton] at hb'
  exact hnew (hb' ▸ hb)

theorem nodup_mergeEntries {rs : List Entry} :
    ∀ {es : List Entry}, (es.map Prod.fst).Nodup → ((mergeEntries es rs).map Prod.fst).Nodup := by
  induction rs with
  | nil => exact id
  | cons r rs ih =>
    intro es h
    refine ih ?_
    rw [mergeEntry]
    cases hs : staged es r.1 with
    | true => exact (map_fst_setImage es r.1 r.2).symm ▸ h
    | false => exact nodup_concat h hs

theorem WriteSet.concat (h : WriteSet m journalBlocks es) (hnew : staged es e.1 = false)
    (hlt : e.1 < m.blocksCount) (hout : OutsideLog m journalBlocks e.1) :
    WriteSet m journalBlocks (es ++ [e]) := by
  have hmem : ∀ b ∈ (es ++ [e]).map Prod.fst, b ∈ es.map Prod.fst ∨ b = e.1 := by simp
  refine ⟨nodup_concat h.nodup hnew, fun b hb => ?_, fun b hb => ?_⟩
  · obtain hb | rfl := hmem b hb
    · exact h.bounded b hb
    · exact hlt
  · obtain hb | rfl := hmem b hb
    · exact h.outside b hb
    · exact hout

theorem WriteSet.mergeEntry (h : WriteSet m journalBlocks es) (hlt : e.1 < m.blocksCount)
    (hout : OutsideLog m journalBlocks e.1) : WriteSet m journalBlocks (mergeEntry es e) := by
  rw [Ext3.mergeEntry]
  cases hs : staged es e.1 with
  | true => exact h.setImage e.1 e.2
  | false => exact h.concat hs hlt hout

variable {rs : List Entry}

theorem WriteSet.mergeEntries :
    ∀ {es : List Entry}, WriteSet m journalBlocks es → WriteSet m journalBlocks rs →
      WriteSet m journalBlocks (mergeEntries es rs) := by
  induction rs with
  | nil => intro es h _; exact h
  | cons r rs ih =>
    intro es h hr
    refine ih (h.mergeEntry (hr.bounded _ ?_) (hr.outside _ ?_)) (hr.sublist (sublist_cons_self ..))
    · simp
    · simp

theorem length_mergeEntry_le (es : List Entry) (e : Entry) :
    (mergeEntry es e).length ≤ es.length + 1 := by
  rw [mergeEntry]
  split
  · simp [setImage]
  · simp

theorem length_mergeEntries_le (es rs : List Entry) :
    (mergeEntries es rs).length ≤ es.length + rs.length := by
  induction rs generalizing es with
  | nil => simp [mergeEntries]
  | cons r rs ih =>
    have h1 := length_mergeEntry_le es r
    have h2 := ih (mergeEntry es r)
    simp only [mergeEntries, foldl_cons, length_cons] at h2 ⊢
    omega

theorem mergeEntries_eq_append : ∀ {es : List Entry},
    ((es ++ rs).map Prod.fst).Nodup → mergeEntries es rs = es ++ rs := by
  induction rs with
  | nil => simp [mergeEntries]
  | cons r rs ih =>
    intro es hnd
    have hsplit : es ++ r :: rs = (es ++ [r]) ++ rs := by simp
    have hnew : staged es r.1 = false := by
      rw [staged_eq_false]
      intro hmem
      rw [map_append, nodup_append] at hnd
      exact hnd.2.2 _ hmem _ (by simp) rfl
    have hstep : mergeEntry es r = es ++ [r] := by rw [mergeEntry, hnew]; rfl
    rw [mergeEntries, foldl_cons, hstep]
    rw [hsplit] at hnd ⊢
    exact ih hnd

/-! ## What the operations do -/

theorem commitClosed_journal (m : Mount) (t : Journal) (closed : List Entry) (d : Disk) :
    (commitClosed m t closed d).journal.journalBlocks = t.journalBlocks ∧
      (commitClosed m t closed d).journal.incompat = t.incompat := by
  simp only [commitClosed]
  split_ifs <;> exact ⟨rfl, rfl⟩

theorem commitPos_succ (tagcap index : ℕ) :
    2 + (index + 1) + (index / tagcap + 1) - 1 = commitPos tagcap (index + 1) := by
  rw [commitPos, payloadPos, Nat.add_sub_cancel]
  generalize index / tagcap = q
  omega

theorem commitPos_mono (tagcap : ℕ) : Monotone (commitPos tagcap) := by
  intro n n' h
  have := (payloadPos_strictMono tagcap).monotone (show n - 1 ≤ n' - 1 by omega)
  simp only [commitPos] at this ⊢
  omega

theorem three_le_commitPos (tagcap n : ℕ) : 3 ≤ commitPos tagcap n := by
  rw [commitPos, payloadPos]
  generalize (n - 1) / tagcap = q
  omega

/-- All `ext3_journal_block` can do: fail, replace an image, skip an image that the home block
already has, or add one. -/
theorem journalBlock_cases (m : Mount) (unchanged : Bool) (s : Store) (b : ℕ) (image : Image) :
    (∃ ioFailed, journalBlock m unchanged s b image = (false, { s with ioFailed := ioFailed })) ∨
    (staged s.running b = true ∧
      journalBlock m unchanged s b image =
        (true, { s with running := setImage s.running b image })) ∨
    (staged s.running b = false ∧ staged s.closed b = false ∧ unchanged = true ∧
      journalBlock m unchanged s b image = (true, s)) ∨
    (b < m.blocksCount ∧ staged s.running b = false ∧
      s.running.length < journalSegMax * tagCapacity m s.journal.is64 ∧
      (∀ p, p = payloadPos s.running.length (tagCapacity m s.journal.is64) ∨
          p = descPos s.running.length (tagCapacity m s.journal.is64) ∨
          p = commitPos (tagCapacity m s.journal.is64) (s.running.length + 1) →
        journalPhys m s.journal.journalBlocks p ≠ 0) ∧
      journalBlock m unchanged s b image =
        (true, { s with running := s.running ++ [(b, image)] })) := by
  rw [← commitPos_succ]
  simp only [journalBlock]
  split
  · exact .inl ⟨s.ioFailed, rfl⟩
  split
  · exact .inl ⟨true, rfl⟩
  split
  · rename_i hrun
    exact .inr (.inl ⟨hrun, rfl⟩)
  rename_i hrun
  rw [Bool.not_eq_true] at hrun
  split
  · rename_i hskip
    rw [Bool.and_eq_true, Bool.not_eq_true'] at hskip
    exact .inr (.inr (.inl ⟨hrun, hskip.2, hskip.1, rfl⟩))
  split
  · exact .inl ⟨true, rfl⟩
  split
  · exact .inl ⟨true, rfl⟩
  rename_i hroom hphys
  refine .inr (.inr (.inr ⟨by omega, hrun, by omega, ?_, rfl⟩))
  simp only [not_or] at hphys
  rintro p (rfl | rfl | rfl)
  exacts [hphys.1, hphys.2.1, hphys.2.2]

variable {s : Store}

theorem journalBlock_append (image : Image) (hio : s.ioFailed = false) (hlt : b < m.blocksCount)
    (hbound : b < tagBlockBound s.journal.is64) (hnew : staged s.running b = false)
    (hroom : s.running.length < journalSegMax * tagCapacity m s.journal.is64)
    (hphys : ∀ p ≤ commitPos (tagCapacity m s.journal.is64) (s.running.length + 1),
      journalPhys m s.journal.journalBlocks p ≠ 0) :
    (journalBlock m false s b image).2 = { s with running := s.running ++ [(b, image)] } := by
  have hcap := tagCapacity_pos m s.journal.is64
  have hdesc := payloadPos_eq s.running.length (tagCapacity m s.journal.is64)
  have hcommit : commitPos (tagCapacity m s.journal.is64) (s.running.length + 1) =
      payloadPos s.running.length (tagCapacity m s.journal.is64) + 1 := rfl
  simp only [journalBlock, hio, hnew, Bool.false_and, Bool.false_eq_true, if_false, commitPos_succ]
  split_ifs with hrange hfull hpos
  · rcases hrange with h | ⟨h, hfalse⟩
    · omega
    rw [hfalse] at hbound
    simp only [tagBlockBound, Bool.false_eq_true, if_false] at hbound
    omega
  · omega
  · rcases hpos with h | h | h
    · exact absurd h (hphys _ (by omega))
    · exact absurd h (hphys _ (by omega))
    · exact absurd h (hphys _ le_rfl)
  · rfl

/-- All a merge can do to the store: nothing, or a merge, with a commit before it when the
descriptors could not hold both sets. -/
theorem mergeRunning_cases (m : Mount) (s : Store) :
    s.running = [] ∧ mergeRunning m s = (true, s) ∨ s.running ≠ [] ∧
    (s.closed.length + s.running.length ≤ journalSegMax * tagCapacity m s.journal.is64 ∧
      mergeRunning m s = (true, { s with
        closed := mergeEntries s.closed s.running, running := [] }) ∨
    (commitStore m s).1 = true ∧ mergeRunning m s = (true, { (commitStore m s).2 with
        closed := mergeEntries [] s.running, running := [] }) ∨
    mergeRunning m s = (false, (commitStore m s).2)) := by
  have hcap := tagCapacity_pos m s.journal.is64
  simp only [mergeRunning]
  rw [if_neg (by omega)]
  split
  · rename_i hnil
    exact .inl ⟨isEmpty_iff.mp hnil, rfl⟩
  rename_i hne
  refine .inr ⟨by simpa using hne, ?_⟩
  by_cases hroom : journalSegMax * tagCapacity m s.journal.is64 < s.closed.length + s.running.length
  · rw [if_pos hroom]
    split
    · rename_i hok
      exact .inr (.inl ⟨hok, rfl⟩)
    · exact .inr (.inr rfl)
  · rw [if_neg hroom]
    exact .inl ⟨by omega, rfl⟩

/-! ## The log a write-set needs -/

/-- The positions a set needs when it grows to `index + 1` entries. -/
theorem position_cases {tagcap index p : ℕ} (hcap : 0 < tagcap) (hpos : 1 ≤ p)
    (hold : index = 0 ∨ commitPos tagcap index < p) (hp : p ≤ commitPos tagcap (index + 1)) :
    p = payloadPos index tagcap ∨ p = descPos index tagcap ∨ p = commitPos tagcap (index + 1) := by
  rcases hold with rfl | hold
  · simp only [commitPos, payloadPos, descPos, Nat.sub_self, Nat.zero_div] at hp ⊢
    omega
  have hdiv : index / tagcap ≤ (index - 1) / tagcap + 1 := by
    rw [← Nat.add_div_right _ hcap]
    exact Nat.div_le_div_right (by omega)
  simp only [commitPos, payloadPos, Nat.add_sub_cancel] at hold hp ⊢
  omega

theorem exists_unmapped (m : Mount) (journalBlocks : ℕ) :
    ∃ p, journalPhys m journalBlocks p = 0 := by
  by_contra hall
  push Not at hall
  -- otherwise the positions up to the block count would have distinct blocks below it
  have hinj : Set.InjOn m.journalMap (Finset.range (m.blocksCount + 1)) := by
    intro p _ q _ heq
    exact m.journalMap_inj p q (journalPhys_ne_zero (hall p)).2.1 heq
  have hmaps : Set.MapsTo m.journalMap (Finset.range (m.blocksCount + 1))
      (Finset.range m.blocksCount) := by
    intro p _
    simpa using (journalPhys_ne_zero (hall p)).2.2.1
  have hcard := Finset.card_le_card_of_injOn m.journalMap hmaps hinj
  simp only [Finset.card_range] at hcard
  omega

/-- The number of leading log positions that have a device block.  For a journal inode
without holes this is the block count of the journal. -/
def logLength (m : Mount) (journalBlocks : ℕ) : ℕ := Nat.find (exists_unmapped m journalBlocks)

theorem journalPhys_logLength (m : Mount) (journalBlocks : ℕ) :
    journalPhys m journalBlocks (logLength m journalBlocks) = 0 :=
  Nat.find_spec (exists_unmapped m journalBlocks)

theorem journalPhys_of_lt {p : ℕ} (h : p < logLength m journalBlocks) :
    journalPhys m journalBlocks p ≠ 0 :=
  Nat.find_min (exists_unmapped m journalBlocks) h

open Classical in
/-- The number of blocks of the volume that are not part of the log. -/
noncomputable def homeCount (m : Mount) (journalBlocks : ℕ) : ℕ :=
  ((Finset.range m.blocksCount).filter (OutsideLog m journalBlocks)).card

theorem WriteSet.length_le_homeCount
    (h : WriteSet m journalBlocks es) : es.length ≤ homeCount m journalBlocks := by
  classical
  rw [← length_map Prod.fst, ← toFinset_card_of_nodup h.nodup]
  apply Finset.card_le_card
  intro b hb
  rw [mem_toFinset] at hb
  rw [Finset.mem_filter, Finset.mem_range]
  exact ⟨h.bounded b hb, h.outside b hb⟩

theorem exists_writeSet {n : ℕ} (h : n ≤ homeCount m journalBlocks) :
    ∃ es : List Entry, es.length = n ∧ WriteSet m journalBlocks es := by
  classical
  obtain ⟨bs, hsub, hcard⟩ := Finset.exists_subset_card_eq h
  have hfst : (bs.toList.map fun b => (b, zero)).map Prod.fst = bs.toList := by
    rw [map_map]
    exact map_id _
  have hmem : ∀ b ∈ bs.toList, b < m.blocksCount ∧ OutsideLog m journalBlocks b := by
    intro b hb
    simpa using hsub (Finset.mem_toList.mp hb)
  refine ⟨bs.toList.map fun b => (b, zero), by simpa using hcard, ?_, ?_, ?_⟩
  · rw [hfst]
    exact bs.nodup_toList
  · rw [hfst]
    exact fun b hb => (hmem b hb).1
  · rw [hfst]
    exact fun b hb => (hmem b hb).2

/-- The closed set, if there is one, fits the log, and its commit goes through if it has its
scratch buffers. -/
def Fits (m : Mount) (s : Store) : Prop :=
  s.closed ≠ [] →
    (∀ r ∈ logRecords s.journal (tagCapacity m s.journal.is64) s.closed,
      r.1 < logLength m s.journal.journalBlocks) ∧
    (m.scratch = true → (commitClosed m s.journal s.closed s.disk).ok = true)

/-- The commit record of the closed set lies inside the log. -/
def Room (m : Mount) (s : Store) : Prop :=
  s.closed ≠ [] → commitPos (tagCapacity m s.journal.is64) s.closed.length <
    logLength m s.journal.journalBlocks

/-! ## The invariant of handles -/

/-- No block has two images in a write-set. -/
def Distinct (s : Store) : Prop :=
  (s.closed.map Prod.fst).Nodup ∧ (s.running.map Prod.fst).Nodup

namespace Distinct

variable (h : Distinct s)
include h

theorem discardRunning : Distinct (discardRunning s) := ⟨h.1, nodup_nil⟩

theorem commitStore : Distinct (commitStore m s).2 := ⟨nodup_nil, h.2⟩

theorem journalBlock {unchanged : Bool} {image : Image} :
    Distinct (journalBlock m unchanged s b image).2 := by
  rcases journalBlock_cases m unchanged s b image with
    ⟨ioFailed, heq⟩ | ⟨-, heq⟩ | ⟨-, -, -, heq⟩ | ⟨-, hnew, -, -, heq⟩ <;> rw [heq]
  · exact h
  · exact ⟨h.1, (map_fst_setImage s.running b image).symm ▸ h.2⟩
  · exact h
  · exact ⟨h.1, nodup_concat h.2 hnew⟩

theorem mergeRunning : Distinct (mergeRunning m s).2 := by
  rcases mergeRunning_cases m s with ⟨-, heq⟩ | ⟨-, ⟨-, heq⟩ | ⟨-, heq⟩ | heq⟩ <;> rw [heq]
  · exact h
  · exact ⟨nodup_mergeEntries h.1, nodup_nil⟩
  · exact ⟨nodup_mergeEntries nodup_nil, nodup_nil⟩
  · exact h.commitStore

end Distinct

/-- What every handle keeps: the geometry of the journal, and write-sets that the
descriptors can hold; the running set also fits the log. -/
structure HandleInv (m : Mount) (t : Journal) (s : Store) : Prop where
  blocks : s.journal.journalBlocks = t.journalBlocks
  incompat : s.journal.incompat = t.incompat
  running : WriteSet m t.journalBlocks s.running
  running_le : s.running.length ≤ journalSegMax * tagCapacity m t.is64
  room : s.running ≠ [] →
    commitPos (tagCapacity m t.is64) s.running.length < logLength m t.journalBlocks
  closed : WriteSet m t.journalBlocks s.closed
  closed_le : s.closed.length ≤ journalSegMax * tagCapacity m t.is64
  long : s.closed ≠ [] → 3 < logLength m t.journalBlocks

variable {d : Disk}

namespace HandleInv

variable {t : Journal}

theorem mounted (m : Mount) (t : Journal) (d : Disk) : HandleInv m t (mounted t d).2 :=
  ⟨rfl, rfl, .nil _ _, Nat.zero_le _, absurd rfl, .nil _ _, Nat.zero_le _, absurd rfl⟩

section

variable (h : HandleInv m t s)
include h

theorem is64_eq : s.journal.is64 = t.is64 := Journal.is64_congr h.incompat

theorem discardRunning : HandleInv m t (discardRunning s) :=
  { h with
    running := .nil _ _
    running_le := Nat.zero_le _
    room := absurd rfl }

theorem startStore : HandleInv m t (startStore s) :=
  { h.discardRunning with }

theorem commitStore : HandleInv m t (commitStore m s).2 := by
  have hj := commitClosed_journal m s.journal s.closed s.disk
  exact { h with
    blocks := hj.1.trans h.blocks
    incompat := hj.2.trans h.incompat
    closed := .nil _ _
    closed_le := Nat.zero_le _
    long := absurd rfl }

theorem journalBlock {unchanged : Bool} {image : Image}
    (h0 : 0 < logLength m t.journalBlocks) (hb : OutsideLog m t.journalBlocks b) :
    HandleInv m t (journalBlock m unchanged s b image).2 := by
  rcases journalBlock_cases m unchanged s b image with
    ⟨ioFailed, heq⟩ | ⟨-, heq⟩ | ⟨-, -, -, heq⟩ | ⟨hlt, hnew, hlen, hpos, heq⟩ <;> rw [heq]
  · exact { h with }
  · have hlen : (setImage s.running b image).length = s.running.length := by simp [setImage]
    exact { h with
      running := h.running.setImage b image
      running_le := hlen ▸ h.running_le
      room := by
        intro hne
        rw [hlen]
        apply h.room
        rintro hnil
        exact hne (by simp [hnil, setImage]) }
  · exact h
  rw [h.is64_eq, h.blocks] at *
  exact { h with
    running := h.running.concat hnew hlt hb
    running_le := by simpa [Nat.succ_le_iff] using hlen
    room := by
      intro _
      rw [length_append]
      by_contra hroom
      -- the first unmapped position would be one that was checked for this block
      refine hpos _ (position_cases (tagCapacity_pos m t.is64) h0 ?_ (Nat.not_lt.mp hroom))
        (journalPhys_logLength m t.journalBlocks)
      by_cases hnil : s.running = []
      · exact .inl (by rw [hnil, length_nil])
      · exact .inr (h.room hnil) }

theorem mergeRunning : HandleInv m t (mergeRunning m s).2 := by
  have hmerge : ∀ {s' : Store}, HandleInv m t s' → s'.running ≠ [] →
      s'.closed.length + s'.running.length ≤ journalSegMax * tagCapacity m t.is64 →
      HandleInv m t { s' with closed := mergeEntries s'.closed s'.running, running := [] } := by
    intro s' h' hne hroom
    have hlen := length_mergeEntries_le s'.closed s'.running
    refine { h'.discardRunning with
      closed := h'.closed.mergeEntries h'.running
      closed_le := hlen.trans hroom
      long := ?_ }
    intro _
    exact (three_le_commitPos _ _).trans_lt (h'.room hne)
  rcases mergeRunning_cases m s with ⟨-, heq⟩ | ⟨hne, ⟨hroom, heq⟩ | ⟨-, heq⟩ | heq⟩ <;> rw [heq]
  · exact h
  · rw [h.is64_eq] at hroom
    exact hmerge h hne hroom
  · refine hmerge h.commitStore hne ?_
    simpa [Ext3.commitStore] using h.running_le
  · exact h.commitStore

end

theorem step {x y : Phase × Store} (h : HandleInv m t x.2)
    (h0 : 0 < logLength m t.journalBlocks) (hstep : HandleStep m x y) : HandleInv m t y.2 := by
  cases hstep with
  | start s => exact h.startStore
  | block s unchanged b image hb => exact h.journalBlock h0 (h.blocks ▸ hb)
  | merge s hio hok => exact h.mergeRunning
  | fail s => exact h.discardRunning
  | mergeFail s hio hok => exact h.mergeRunning.discardRunning
  | defer s waiters fresh hd => exact { h with }
  | commit s => exact h.commitStore
  | forward s => exact h.commitStore
  | finish s => exact h.discardRunning
  | abort s phase => exact { h.discardRunning with }

theorem of_reach {x : Phase × Store} (h0 : 0 < logLength m t.journalBlocks)
    (hx : HandleReach m t d x) : HandleInv m t x.2 := by
  induction hx with
  | refl => exact mounted m t d
  | tail _ hstep ih => exact ih.step h0 hstep

theorem fits_of_room (h : HandleInv m t s) (hroom : Room m s) : Fits m s := by
  intro hne
  have hcap := tagCapacity_pos m t.is64
  have hlt := hroom hne
  have hpos : ∀ r ∈ logRecords s.journal (tagCapacity m s.journal.is64) s.closed,
      r.1 < logLength m s.journal.journalBlocks := by
    intro r hr
    exact (pos_of_mem_logRecords (tagCapacity_pos _ _) hne hr).2.trans_lt hlt
  refine ⟨hpos, fun hs => commitClosed_ok_of_mapped _ hs ?_ ?_ ?_⟩
  · rw [h.is64_eq]
    have hle := h.closed_le
    exact Nat.lt_succ_iff.mp ((Nat.div_lt_iff_lt_mul hcap).mpr (by rw [Nat.succ_mul]; omega))
  · intro r hr
    exact journalPhys_of_lt (hpos r hr)
  · exact journalPhys_of_lt (Nat.zero_lt_of_lt hlt)

theorem fits (h : HandleInv m t s) (hlong : logLength m t.journalBlocks ≤ 3 ∨
      commitPos (tagCapacity m t.is64) (min (journalSegMax * tagCapacity m t.is64)
        (homeCount m t.journalBlocks)) < logLength m t.journalBlocks) : Fits m s := by
  apply h.fits_of_room
  intro hne
  rw [h.is64_eq, h.blocks]
  rcases hlong with hshort | hlong
  · exact absurd (h.long hne) (Nat.not_lt.mpr hshort)
  · exact (commitPos_mono _ (le_min h.closed_le h.closed.length_le_homeCount)).trans_lt hlong

end HandleInv

/-! ## A merge that does not fit -/

section Misfit

variable {t : Journal}

section

variable (hbound : ∀ b < m.blocksCount, b < tagBlockBound t.is64)
include hbound

theorem stage_all :
    ∀ {s : Store}, s.journal.journalBlocks = t.journalBlocks → s.journal.incompat = t.incompat →
      s.ioFailed = false → WriteSet m t.journalBlocks (s.running ++ rs) →
      s.running.length + rs.length ≤ journalSegMax * tagCapacity m t.is64 →
      commitPos (tagCapacity m t.is64) (s.running.length + rs.length) <
        logLength m t.journalBlocks →
      Relation.ReflTransGen (HandleStep m) (.operation, s)
        (.operation, { s with running := s.running ++ rs }) := by
  induction rs with
  | nil =>
    intro s _ _ _ _ _ _
    rw [append_nil]
  | cons r rs ih =>
    intro s hblocks hincompat hio hset hcap hroom
    have his64 := Journal.is64_congr hincompat
    have hmem : r.1 ∈ (s.running ++ r :: rs).map Prod.fst := by simp
    have hlt := hset.bounded _ hmem
    have hnew : staged s.running r.1 = false := by
      rw [staged_eq_false]
      intro hin
      have hnd := hset.nodup
      rw [map_append, nodup_append] at hnd
      exact hnd.2.2 _ hin _ (by simp) rfl
    rw [length_cons] at hcap hroom
    have hstep : HandleStep m (.operation, s)
        (.operation, { s with running := s.running ++ [r] }) := by
      have happend := journalBlock_append r.2 hio hlt
        (his64 ▸ hbound _ hlt) hnew (by rw [his64]; omega) (by
          intro p hp
          rw [his64] at hp
          rw [hblocks]
          apply journalPhys_of_lt
          have hmono := commitPos_mono (tagCapacity m t.is64)
            (show s.running.length + 1 ≤ s.running.length + (rs.length + 1) by omega)
          omega)
      rw [← happend]
      exact .block s false r.1 r.2 (hblocks ▸ hset.outside _ hmem)
    refine Relation.ReflTransGen.head hstep ?_
    have hassoc : s.running ++ r :: rs = (s.running ++ [r]) ++ rs := by simp
    rw [hassoc] at hset ⊢
    refine ih hblocks hincompat hio hset ?_ ?_
    · rw [length_append, length_singleton]
      omega
    · rw [length_append, length_singleton, Nat.add_assoc, Nat.add_comm 1]
      exact hroom

/-- A whole handle, up to the decision whether to defer the commit. -/
theorem run_handle (hblocks : s.journal.journalBlocks = t.journalBlocks)
    (hincompat : s.journal.incompat = t.incompat) (hne : rs ≠ [])
    (hset : WriteSet m t.journalBlocks (s.closed ++ rs))
    (hcap : s.closed.length + rs.length ≤ journalSegMax * tagCapacity m t.is64)
    (hroom : commitPos (tagCapacity m t.is64) rs.length < logLength m t.journalBlocks) :
    Relation.ReflTransGen (HandleStep m) (.idle, s)
      (.stopping, { startStore s with closed := s.closed ++ rs }) := by
  have hrs := hset.sublist (sublist_append_right s.closed rs)
  have hstage : Relation.ReflTransGen (HandleStep m) (.operation, startStore s)
      (.operation, { startStore s with running := rs }) :=
    stage_all hbound hblocks hincompat rfl hrs (by simp only [startStore, length_nil]; omega)
      (by simpa only [startStore, length_nil, Nat.zero_add] using hroom)
  have his64 := Journal.is64_congr hincompat
  have hmerge : mergeRunning m { startStore s with running := rs } =
      (true, { startStore s with closed := s.closed ++ rs }) := by
    have hfit : ¬ journalSegMax * tagCapacity m s.journal.is64 < s.closed.length + rs.length := by
      rw [his64]
      omega
    have hcap0 := tagCapacity_pos m s.journal.is64
    have hempty : rs.isEmpty = false := by simpa using hne
    have htag : tagCapacity m (startHandle s.journal).is64 = tagCapacity m s.journal.is64 := rfl
    simp [mergeRunning, startStore, htag, if_neg (show ¬ tagCapacity m
      s.journal.is64 = 0 by omega), if_neg hfit, mergeEntries_eq_append hset.nodup]
  refine Relation.ReflTransGen.head (.start s) (hstage.tail ?_)
  have hstep := HandleStep.merge { startStore s with running := rs } rfl (by rw [hmerge])
  rw [hmerge] at hstep
  exact hstep

/-- **Two handles that fit the log one by one can make a closed set that does not.** -/
theorem exists_closed (d : Disk) (hne : rs ≠ []) (hset : WriteSet m t.journalBlocks (e :: rs))
    (hcap : rs.length + 1 ≤ journalSegMax * tagCapacity m t.is64)
    (hroom : commitPos (tagCapacity m t.is64) rs.length < logLength m t.journalBlocks) :
    ∃ x, HandleReach m t d x ∧ x.2.closed = e :: rs ∧
      x.2.journal.journalBlocks = t.journalBlocks ∧ x.2.journal.incompat = t.incompat := by
  have hlen := length_pos_of_ne_nil hne
  have hone : WriteSet m t.journalBlocks [e] := hset.sublist (by simp)
  -- the first handle leaves one block in the closed set
  have hfirst := run_handle (s := (mounted t d).2) hbound rfl rfl (cons_ne_nil e []) hone
    (by simpa [mounted] using by omega)
    ((commitPos_mono _ (by rw [length_singleton]; omega)).trans_lt hroom)
  have hdefer : shouldDefer m true false
      { startStore (mounted t d).2 with closed := [e] } = true := by
    have hcap0 := tagCapacity_pos m t.is64
    have htag : tagCapacity m (startHandle t).is64 = tagCapacity m t.is64 := rfl
    simp only [shouldDefer, startStore, mounted, journalSegMax, groupMaxHandles]
    simp
    omega
  -- the second one adds the rest
  have hsecond := run_handle (s := { startStore (mounted t d).2 with
      closed := [e], closedHandles := 1 }) hbound rfl rfl hne hset
    (by simp only [length_singleton]; omega) hroom
  exact ⟨_, (hfirst.tail (.defer _ true false hdefer)).trans hsecond, rfl, rfl, rfl⟩

end

theorem not_fits_of_closed (hclosed : s.closed = es) (hne : es ≠ [])
    (hblocks : s.journal.journalBlocks = t.journalBlocks)
    (hincompat : s.journal.incompat = t.incompat)
    (hlong : logLength m t.journalBlocks ≤ commitPos (tagCapacity m t.is64) es.length) :
    ¬ Fits m s := by
  intro hfits
  have his64 := Journal.is64_congr hincompat
  have hcommit := (hfits (hclosed ▸ hne)).1
    (commitPos (tagCapacity m s.journal.is64) s.closed.length, commitImage s.journal)
    (by simp [logRecords])
  rw [his64, hclosed, hblocks] at hcommit
  exact absurd hcommit (Nat.not_lt.mpr hlong)

end Misfit

variable {t : Journal} {d' : Disk}

section

variable (h : initJournal m d = (some t, d'))
include h

/-- What `ext3_init_journal` has checked when it succeeds. -/
theorem initJournal_some : ∃ sb, readLog m d 0 = some sb ∧
      supportedFormat m sb = true ∧ t.incompat = sFeatureIncompat sb := by
  simp only [initJournal] at h
  split at h
  · simp at h
  rename_i sb hread
  split at h
  swap
  · simp at h
  rename_i hsup
  refine ⟨sb, hread, hsup, ?_⟩
  repeat' split at h
  all_goals cases h
  all_goals rfl

theorem logLength_pos : 0 < logLength m t.journalBlocks := by
  obtain ⟨sb, hread, -⟩ := initJournal_some h
  obtain ⟨hne, hlt, -⟩ := readLog_eq_some hread
  apply Nat.pos_of_ne_zero
  intro hzero
  have hphys := journalPhys_logLength m t.journalBlocks
  rw [hzero, journalPhys, if_neg (by omega), if_neg (by omega)] at hphys
  exact hne hphys

theorem lt_tagBlockBound_of_mount : ∀ b < m.blocksCount, b < tagBlockBound t.is64 := by
  obtain ⟨sb, -, hsup, hincompat⟩ := initJournal_some h
  have hsb : Superblock m (loadJournal sb) (sStart sb) sb := ⟨hsup, rfl, rfl, rfl, rfl⟩
  intro b hb
  rw [Journal.is64, hincompat]
  exact hsb.lt_tagBlockBound hb

end

/-- **The closed set always fits the log exactly when the log holds the largest set that
merging can build, or is too short for a single block.** -/
theorem handles_fit_iff {m : Mount} {t : Journal} {d0 d : Disk}
    (hinit : initJournal m d0 = (some t, d)) : (∀ x, HandleReach m t d x → Fits m x.2) ↔
      logLength m t.journalBlocks ≤ 3 ∨
      commitPos (tagCapacity m t.is64) (min (journalSegMax * tagCapacity m t.is64)
        (homeCount m t.journalBlocks)) < logLength m t.journalBlocks := by
  have h0 := logLength_pos hinit
  refine ⟨?_, fun hlong x hx => (HandleInv.of_reach h0 hx).fits hlong⟩
  intro hfits
  by_contra hbad
  push Not at hbad
  obtain ⟨hlong, hmax⟩ := hbad
  -- the smallest number of blocks that does not fit is reached by adding one to a set that does
  have hex : ∃ n, logLength m t.journalBlocks ≤ commitPos (tagCapacity m t.is64) n := ⟨_, hmax⟩
  have hle := (Nat.find_min' hex hmax)
  have hspec := Nat.find_spec hex
  have hmin := fun {n : ℕ} => Nat.find_min (m := n) hex
  generalize Nat.find hex = n at hle hspec hmin
  have hone : ∀ k < 2, commitPos (tagCapacity m t.is64) k = 3 := by
    intro k hk
    rw [commitPos, show k - 1 = 0 by omega, payloadPos, Nat.zero_div]
  have hn : 2 ≤ n := by
    by_contra hn
    rw [hone n (by omega)] at hspec
    omega
  obtain ⟨es, hlen, hset⟩ := exists_writeSet (hle.trans (min_le_right _ _))
  cases es with
  | nil => rw [length_nil] at hlen; omega
  | cons e rs =>
    rw [length_cons] at hlen
    have hne : rs ≠ [] := by
      rintro rfl
      rw [length_nil] at hlen
      omega
    obtain ⟨x, hx, hclosed, hblocks, hincompat⟩ := exists_closed
      (lt_tagBlockBound_of_mount hinit) d hne hset (hlen ▸ hle.trans (min_le_left _ _))
      (Nat.not_le.mp (hmin (by omega)))
    refine not_fits_of_closed hclosed (cons_ne_nil e rs) hblocks hincompat ?_ (hfits x hx)
    rw [length_cons, hlen]
    exact hspec

/-! ### A short journal and a long one -/

namespace SmallLog

open WrappedLog (mount ones)

/-- A clean journal superblock for a log of the given length. -/
def superblock (length : ℕ) : Image :=
  putBe (putBe (putBe (putBe (putHeader zero superblockV2 0) 12 4 1024) 16 4 length) 20 4 1) 24 4 1

def disk (length : ℕ) : Disk := fun b => if b = 10 then superblock length else zero

def journal (length : ℕ) : Journal := loadJournal (superblock length)

theorem mount_disk {length : ℕ} (h : supportedFormat mount (superblock length) = true)
    (hstart : sStart (superblock length) = 0) :
    initJournal mount (disk length) = (some (journal length), disk length) := by
  have hread : readLog mount (disk length) 0 = some (superblock length) :=
    readLog_eq (disk length) 0 (by decide)
  have hsb : Superblock mount (journal length) 0 (superblock length) := ⟨h, rfl, rfl, rfl, hstart⟩
  exact initJournal_clean hread hsb

theorem logLength_eq {length : ℕ} (hlt : length < 90) (hpos : 0 < length) :
    logLength mount length = length := by
  rw [logLength, Nat.find_eq_iff]
  constructor
  · simp [journalPhys, hpos.ne']
  intro p hp
  have hphys : mount.journalMap p = 10 + p := rfl
  have hcount : mount.blocksCount = 100 := rfl
  rw [journalPhys, if_neg (by omega), if_neg (by omega)]
  omega

theorem writeSet : WriteSet mount 6 [(50, ones), (51, ones), (52, ones), (53, ones)] := by
  have hout : ∀ b ∈ [50, 51, 52, 53], ∀ p < 6, mount.journalMap p ≠ b := by decide
  refine ⟨by decide, by decide, ?_⟩
  intro b hb p hp
  exact hout b hb p ((journalPhys_ne_zero hp).2.2.2 (by decide))

end SmallLog

/-- In a journal of six blocks a handle of one block is deferred and a handle of three
blocks is merged with it.  The commit of the four blocks finds no room, and drops them. -/
theorem deferred_handle_lost :
    initJournal mount (SmallLog.disk 6) = (some (SmallLog.journal 6), SmallLog.disk 6) ∧
    ∃ x, HandleReach mount (SmallLog.journal 6) (SmallLog.disk 6) x ∧
      x.2.closed.map Prod.fst = [50, 51, 52, 53] ∧
      (commitStore mount x.2).1 = false ∧
      (commitStore mount x.2).2.closed = [] ∧
      (commitStore mount x.2).2.disk = x.2.disk := by
  have hinit : initJournal mount (SmallLog.disk 6) = (some (SmallLog.journal 6), SmallLog.disk 6) :=
    SmallLog.mount_disk (by decide) (by decide)
  have hblocks : (SmallLog.journal 6).journalBlocks = 6 := by decide
  have hcap : tagCapacity mount (SmallLog.journal 6).is64 = 124 := by decide
  refine ⟨hinit, ?_⟩
  obtain ⟨x, hx, hclosed, hxblocks, hincompat⟩ := exists_closed (lt_tagBlockBound_of_mount hinit)
    (SmallLog.disk 6) (cons_ne_nil _ _) (hblocks.symm ▸ SmallLog.writeSet)
    (by decide)
    (by rw [SmallLog.logLength_eq (by decide) (by decide)]; decide)
  have hcommit : commitClosed mount x.2.journal x.2.closed x.2.disk = ⟨false, [], x.2.journal⟩ := by
    have hcap' : tagCapacity mount x.2.journal.is64 = 124 := by
      rw [Journal.is64, hincompat]
      exact hcap
    have hend : journalPhys mount 6 (payloadPos (4 - 1) 124 + 1) = 0 := by decide
    simp [commitClosed, hclosed, hcap', hxblocks, hblocks, hend]
  refine ⟨x, hx, by rw [hclosed]; rfl, ?_, rfl, ?_⟩
  · rw [commitStore, hcommit]
  · rw [commitStore, hcommit]
    rfl

theorem handles_fit_long : initJournal mount (SmallLog.disk 60) =
      (some (SmallLog.journal 60), SmallLog.disk 60) ∧
    ∀ x, HandleReach mount (SmallLog.journal 60) (SmallLog.disk 60) x → Fits mount x.2 := by
  have hinit : initJournal mount (SmallLog.disk 60) =
      (some (SmallLog.journal 60), SmallLog.disk 60) :=
    SmallLog.mount_disk (by decide) (by decide)
  have hblocks : (SmallLog.journal 60).journalBlocks = 60 := by decide
  have hlen : logLength mount 60 = 60 := SmallLog.logLength_eq (by decide) (by decide)
  -- the log is in the blocks from 10 to 69
  have hhome : homeCount mount 60 ≤ 40 := by
    refine (Finset.card_le_card (t := (Finset.range 100).filter fun b => b < 10 ∨ 70 ≤ b)
      fun b hb => ?_).trans_eq (by decide)
    simp only [Finset.mem_filter] at hb ⊢
    refine ⟨hb.1, ?_⟩
    by_contra hin
    have hphys : mount.journalMap (b - 10) = 10 + (b - 10) := rfl
    exact hb.2 (b - 10) (journalPhys_of_lt (by omega)) (by omega)
  refine ⟨hinit, (handles_fit_iff hinit).mpr (.inr ?_)⟩
  rw [hblocks, hlen]
  exact (commitPos_mono 124 ((min_le_right _ _).trans hhome)).trans_lt (by decide)

end AvoryOS.Ext3
