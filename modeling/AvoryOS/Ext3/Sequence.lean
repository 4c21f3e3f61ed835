import AvoryOS.Ext3.Crash
import Mathlib.Logic.Relation

/-!
# Sequence numbers across mounts

Blocks of finished transactions stay in the log until something overwrites them, and only
their sequence numbers keep recovery from replaying them again.  This module follows a
volume through mounts, recoveries, commits and stops, and through other implementations
that may have left a log of their own on it.

After a recovery the next sequence number is one above `s_sequence`, however many
transactions were replayed.  That is right for the logs this code writes, which hold one
transaction.
-/

namespace AvoryOS.Ext3

open Bytes Device Function Option WrappedLog

/-! ## The system -/

inductive Sys
  | blank
  /-- Not mounted.  `pending` are the home writes of the transactions in the log that no
  mount has checkpointed. -/
  | down (d : Disk) (pending : List Entry) (k : ℕ)
  /-- Mounted.  `k` counts the mounts, commits and stops since the last foreign log. -/
  | up (t : Journal) (d : Disk) (k : ℕ)

/-- A log left by a JBD2 implementation: clean, or with committed transactions from
`s_start` and `s_sequence` on. -/
structure ForeignLog (m : Mount) (d : Disk) (sb : Image) (txns : List Txn) : Prop where
  read : readLog m d 0 = some sb
  supported : supportedFormat m sb = true
  maxlen : sMaxlen sb ≠ 0
  log : sStart sb = 0 ∧ txns = [] ∨ sStart sb ≠ 0 ∧ WellFormedLog m (logArea sb) (readLog m d) txns

def foreignWrites (sb : Image) (txns : List Txn) : List Entry :=
  logWrites (logRevoked (sSequence sb) txns) (sSequence sb) txns

inductive Event
  | foreign (d : Disk) (sb : Image) (txns : List Txn)
  | mount
  | write (b : ℕ) (image : Image)
  | commit (closed : List Entry)
  | stop
  | stopInCommit (closed : List Entry) (d : Disk)
  | stopInMount (d : Disk)

/-- A log head on the device: `s_start` of the journal superblock. -/
def headOf (m : Mount) (d : Disk) : ℕ := sStart (d (m.journalMap 0))

inductive Step (m : Mount) : Event → Sys → Sys → Prop
  /-- Another system had the volume and left a log. -/
  | foreign {s : Sys} {d : Disk} {sb : Image} {txns : List Txn}
      (hs : ∀ t d k, s ≠ .up t d k) (hlog : ForeignLog m d sb txns) :
      Step m (.foreign d sb txns) s (.down d (foreignWrites sb txns) 0)
  | mount {d d' : Disk} {pending : List Entry} {k : ℕ} {t : Journal}
      (h : initJournal m d = (some t, d')) :
      Step m .mount (.down d pending k) (.up t d' (k + 1))
  | write {t : Journal} {d : Disk} {k b : ℕ} (hb : IsHome m t.journalBlocks b) (image : Image) :
      Step m (.write b image) (.up t d k) (.up t (update d b image) k)
  | commit {t : Journal} {d : Disk} {k : ℕ} {closed : List Entry}
      (hset : ClosedSet m t.journalBlocks closed)
      (hok : (commitClosed m (startHandle t) closed d).ok = true) :
      Step m (.commit closed) (.up t d k)
        (.up (commitClosed m (startHandle t) closed d).journal
          (writeAll (commitClosed m (startHandle t) closed d).batches.flatten d) (k + 1))
  | stop {t : Journal} {d : Disk} {k : ℕ} : Step m .stop (.up t d k) (.down d [] k)
  /-- The machine stops inside a commit, whose images are due once the head is on disk. -/
  | stopInCommit {t : Journal} {d d' : Disk} {k : ℕ} {closed : List Entry} (hne : closed ≠ [])
      (hset : ClosedSet m t.journalBlocks closed)
      (hok : (commitClosed m (startHandle t) closed d).ok = true)
      (hcrash : CrashState d (commitClosed m (startHandle t) closed d).batches d') :
      Step m (.stopInCommit closed d') (.up t d k)
        (.down d' (if headOf m d' = 0 then [] else closed) (k + 1))
  /-- The machine stops inside a recovery, with its home writes done, torn or lost. -/
  | stopInMount {d d' : Disk} {pending : List Entry} {k : ℕ}
      (hstop : ∀ b, (∀ w ∈ pending, w.1 ≠ b) → d' b = d b) :
      Step m (.stopInMount d') (.down d pending k) (.down d' pending k)

/-! ## The order of sequence numbers -/

/-- `(int32_t)(a - b) > 0`. -/
def later (a b : ℕ) : Prop := 0 < age a b ∧ age a b < 2 ^ 31

instance (a b : ℕ) : Decidable (later a b) :=
  inferInstanceAs (Decidable (0 < age a b ∧ age a b < 2 ^ 31))

theorem later_nextSequence {s q : ℕ} (hq : q < 2 ^ 32) (h : age s q < 2 ^ 31 - 1) :
    later (nextSequence s) q := by
  simp only [later, age, nextSequence] at h ⊢
  omega

/-- The condition on a run: a foreign log holds at most one transaction that still has to
be replayed and no block numbered above it, its blocks are at most `oldest` transactions
old, and the sequence numbers have not come round since. -/
def Within (m : Mount) (oldest : ℕ) : Event → Sys → Prop
  | .foreign d sb txns, _ =>
    txns.length ≤ 1 ∧ StaleWithin AnyBlock m (sMaxlen sb) d (sSequence sb) oldest
  | _, .down _ _ k => oldest + k < 2 ^ 31 - 1
  | _, .up _ _ k => oldest + k < 2 ^ 31 - 1
  | _, .blank => True

/-! ## The invariant -/

/-- A log with one transaction to replay, which writes `pending`. -/
structure Dirty (m : Mount) (t : Journal) (d : Disk) (bound : ℕ) (pending : List Entry) : Prop where
  journalBlocks_ne : t.journalBlocks ≠ 0
  log : ∃ sb start txn, readLog m d 0 = some sb ∧ Superblock m t start sb ∧ start ≠ 0 ∧
    WellFormedLog m (logArea sb) (readLog m d) [txn] ∧
    logWrites (logRevoked t.sequence [txn]) t.sequence [txn] = pending
  stale : StaleWithin AnyBlock m t.journalBlocks d t.sequence bound

def Inv (m : Mount) (oldest : ℕ) : Sys → Prop
  | .blank => True
  | .down d pending k => ∃ t, Clean AnyBlock m t d (oldest + k) ∧ pending = [] ∨
      Dirty m t d (oldest + k) pending
  | .up t d k => Clean AnyBlock m t d (oldest + k)

variable {kind : ℕ → Prop} {m : Mount} {bound : ℕ} {d : Disk}

theorem StaleWithin.mono {journalBlocks s bound' : ℕ}
    (h : StaleWithin kind m journalBlocks d s bound) (hle : bound ≤ bound') :
    StaleWithin kind m journalBlocks d s bound' :=
  fun p hp hpj b hb h1 h2 => (h p hp hpj b hb h1 h2).trans hle

variable {t : Journal}

theorem Clean.mono {bound' : ℕ}
    (h : Clean kind m t d bound) (hle : bound ≤ bound') : Clean kind m t d bound' :=
  ⟨h.journalBlocks_ne, h.superblock, h.stale.mono hle⟩

variable {rs : List Revoked} {w : ℕ × Image}

theorem mem_logWrites {txns : List Txn} :
    ∀ {s : ℕ}, w ∈ logWrites rs s txns → ∃ u ∈ txns, ∃ g ∈ itemsTags u, g.target = w.1 := by
  induction txns with
  | nil => intro s hw; cases hw
  | cons u us ih =>
    intro s hw
    rcases List.mem_append.mp hw with hw | hw
    · exact ⟨u, List.mem_cons_self, mem_tagWrites hw⟩
    · obtain ⟨v, hv, hg⟩ := ih hw
      exact ⟨v, List.mem_cons_of_mem _ hv, hg⟩

theorem isHome_of_mem_logWrites {l : LogArea} {rd : ℕ → Option Image}
    {txns : List Txn} (h : WellFormedLog m l rd txns) {s : ℕ} (hw : w ∈ logWrites rs s txns) :
    IsHome m l.journalBlocks w.1 := by
  obtain ⟨u, hu, g, hg, hgw⟩ := mem_logWrites hw
  intro p hp
  rw [← hgw]
  exact h.avoids u hu g hg p hp

theorem WellFormedLog.congr {l : LogArea} {rd rd' : ℕ → Option Image} {txns : List Txn}
    (h : WellFormedLog m l rd txns) (hrd : ∀ p < l.journalBlocks, rd p = rd' p) :
    WellFormedLog m l rd' txns := by
  refine ⟨h.start_pos, h.four_le, h.nonempty, h.log.congr fun p hp => hrd p (hp.trans_le h.fits),
    h.fits, h.tail.imp ?_ ?_, h.avoids⟩
  · exact fun htail hlt b hb => htail hlt b ((hrd _ hlt).trans hb)
  · exact fun htail p hp hlt b hb => htail p hp hlt b ((hrd p hlt).trans hb)

theorem readLog_of_stop {l : LogArea} {rd : ℕ → Option Image} {txns : List Txn} {s : ℕ} {d' : Disk}
    (h : WellFormedLog m l rd txns)
    (hstop : ∀ b, (∀ w ∈ logWrites rs s txns, w.1 ≠ b) → d' b = d b) :
    ∀ p < l.journalBlocks, readLog m d p = readLog m d' p := by
  intro p hp
  rw [readLog, readLog, hstop _ fun w hw => (isHome_of_mem_logWrites h hw p hp).symm]

/-- A recovery that is stopped leaves its transaction to the next mount. -/
theorem Dirty.stopInMount {pending : List Entry} {d' : Disk} (h : Dirty m t d bound pending)
    (hstop : ∀ b, (∀ w ∈ pending, w.1 ≠ b) → d' b = d b) : Dirty m t d' bound pending := by
  obtain ⟨sb, start, txn, hread, hsb, hstart, hwf, hpending⟩ := h.log
  have hsame : ∀ p < t.journalBlocks, readLog m d p = readLog m d' p := by
    rw [← hpending] at hstop
    rw [← show (logArea sb).journalBlocks = t.journalBlocks from hsb.maxlen]
    exact readLog_of_stop hwf hstop
  have hread' := (hsame 0 (Nat.pos_of_ne_zero h.journalBlocks_ne)).symm.trans hread
  refine ⟨h.journalBlocks_ne, ⟨sb, start, txn, hread', hsb, hstart, ?_, hpending⟩, ?_⟩
  · exact hwf.congr fun p hp => hsame p (hp.trans_eq hsb.maxlen)
  · intro p hp hpj b hb
    rw [← hsame p hpj] at hb
    exact h.stale p hp hpj b hb

theorem Dirty.mount (hro : m.readOnly = false) {t' : Journal} {d' : Disk}
    {pending : List Entry} (h : Dirty m t d bound pending)
    (hinit : initJournal m d = (some t', d')) :
    Clean AnyBlock m t' d' (bound + 1) ∧ t'.sequence = nextSequence t.sequence ∧
      t'.journalBlocks = t.journalBlocks ∧
      (∀ p, 0 < p → p < t.journalBlocks → readLog m d' p = readLog m d p) ∧
      ∀ b, IsHome m t.journalBlocks b → d' b = writeAll pending d b := by
  obtain ⟨sb, start, txn, hread, hsb, hstart, hwf, hpending⟩ := h.log
  have hpos := Nat.pos_of_ne_zero h.journalBlocks_ne
  obtain ⟨h0, hlt0, -⟩ := readLog_eq_some hread
  rw [initJournal_dirty hro hread hsb hstart hwf, hsb.sequence, hpending] at hinit
  obtain ⟨ht, rfl⟩ := Prod.mk.inj hinit
  cases ht
  have hhome : ∀ w ∈ pending, IsHome m t.journalBlocks w.1 := by
    intro w hw
    rw [← hpending] at hw
    have := isHome_of_mem_logWrites hwf hw
    rwa [show (logArea sb).journalBlocks = t.journalBlocks from hsb.maxlen] at this
  have hlog : ∀ p, 0 < p → p < t.journalBlocks →
      readLog m (update (writeAll pending d) (m.journalMap 0)
        (setStart (setSequence sb (nextSequence t.sequence)) 0)) p = readLog m d p := by
    intro p hp hpj
    rw [readLog_update_superblock hp h0, readLog_writeAll_home hhome hpj]
  have hblocks : (loadJournal sb).journalBlocks = t.journalBlocks := hsb.maxlen
  refine ⟨⟨?_, ⟨setStart (setSequence sb (nextSequence t.sequence)) 0, ?_, ?_⟩, ?_⟩, rfl, hblocks,
    hlog, ?_⟩
  · simp only [hblocks]
    exact h.journalBlocks_ne
  · simp only [readLog, update_self]
    rw [if_neg (by omega)]
  · have hretired := (hsb.setSequence _ (nextSequence_lt t.sequence)).setStart 0 (by decide)
    exact { hretired with
      maxlen := hretired.maxlen.trans hsb.maxlen.symm
      incompat := hretired.incompat.trans hsb.incompat.symm }
  · intro p hp hpj b hb hmagic hkind
    simp only [hblocks] at hpj
    rw [hlog p hp hpj] at hb
    have hold := h.stale p hp hpj b hb hmagic hkind
    have hq : (header b).sequence < 2 ^ 32 := getBe_lt b 8 4
    have hnext := age_nextSequence_le (s := t.sequence) hq
    simp only
    omega
  · intro b hb
    rw [update_of_ne (hb 0 hpos).symm]

theorem Clean.mount {t' : Journal} {d' : Disk}
    (h : Clean kind m t d bound) (hinit : initJournal m d = (some t', d')) :
    d' = d ∧ Clean kind m t' d bound := by
  obtain ⟨sb, hread, hsb⟩ := h.superblock
  rw [initJournal_clean hread hsb] at hinit
  obtain ⟨ht, rfl⟩ := Prod.mk.inj hinit
  cases ht
  have hblocks : (loadJournal sb).journalBlocks = t.journalBlocks := hsb.maxlen
  have hseq : (loadJournal sb).sequence = t.sequence := hsb.sequence
  refine ⟨rfl, ?_, ⟨sb, hread, hsb.supported, rfl, rfl, rfl, hsb.start⟩, ?_⟩
  · rw [hblocks]
    exact h.journalBlocks_ne
  · rw [hblocks, hseq]
    exact h.stale

variable {closed : List Entry}

/-- A stop after the log head is published leaves one transaction to replay. -/
theorem Committing.dirty_published (C : Committing AnyBlock m t closed d bound)
    (hbound : bound < 2 ^ 32 - 1) {ws : List (ℕ × Image)} (hws : ws.Sublist closed) :
    Dirty m t (writeAll ws (publishedDisk m t closed d)) bound closed := by
  refine ⟨C.clean.journalBlocks_ne, ⟨publishedSb m t d, 1, _, C.readLog_published_zero hws,
    C.superblock_published, Nat.one_ne_zero, C.wellFormedLog_published trivial hbound hws,
    logWrites_commitTxn (tagCapacity_pos m t.is64) _ _⟩, ?_⟩
  intro p hp hpj b hb
  rw [C.readLog_published hws hp hpj] at hb
  exact (C.clean_unpublished (List.Sublist.refl _)).stale p hp hpj b hb

variable {sb : Image}

theorem headOf_eq (h : readLog m d 0 = some sb) : headOf m d = sStart sb := by
  rw [headOf, (readLog_eq_some h).2.2]

variable {oldest : ℕ}

theorem inv_foreign {txns : List Txn} (hlog : ForeignLog m d sb txns) (hone : txns.length ≤ 1)
    (hstale : StaleWithin AnyBlock m (sMaxlen sb) d (sSequence sb) oldest) :
    Inv m oldest (.down d (foreignWrites sb txns) 0) := by
  refine ⟨loadJournal sb, ?_⟩
  rcases hlog.log with ⟨hstart, rfl⟩ | ⟨hstart, hwf⟩
  · exact .inl ⟨⟨hlog.maxlen, ⟨sb, hlog.read, hlog.supported, rfl, rfl, rfl, hstart⟩, hstale⟩, rfl⟩
  have hlen := List.length_pos_of_ne_nil hwf.nonempty
  obtain ⟨txn, rfl⟩ := List.length_eq_one_iff.mp (by omega : txns.length = 1)
  exact .inr ⟨hlog.maxlen, ⟨sb, sStart sb, txn, hlog.read,
    ⟨hlog.supported, rfl, rfl, rfl, rfl⟩, hstart, hwf, rfl⟩, hstale⟩

theorem inv_stopInCommit {d' : Disk} (hclean : Clean AnyBlock m t d bound)
    (hbound : bound < 2 ^ 31 - 1) (hne : closed ≠ []) (hset : ClosedSet m t.journalBlocks closed)
    (hok : (commitClosed m (startHandle t) closed d).ok = true)
    (hcrash : CrashState d (commitClosed m (startHandle t) closed d).batches d') :
    ∃ t', Clean AnyBlock m t' d' (bound + 1) ∧ (if headOf m d' = 0 then [] else closed) = [] ∨
      Dirty m t' d' (bound + 1) (if headOf m d' = 0 then [] else closed) := by
  have hstart := hclean.startHandle
  have C : Committing AnyBlock m (startHandle t) closed d bound :=
    ⟨hstart, rfl, hset, hne, (commitClosed_stages hne hok).1⟩
  rcases crashState_commit hne hok hcrash with ⟨ws, hws, rfl⟩ | ⟨ws, hws, rfl⟩ | rfl
  · have h := C.clean_unpublished hws
    obtain ⟨sb, hread, hsb⟩ := h.superblock
    refine ⟨_, .inl ⟨h.mono (Nat.le_succ _), ?_⟩⟩
    rw [headOf_eq hread, hsb.start, if_pos rfl]
  · have h := C.dirty_published (by omega) hws
    obtain ⟨sb, start, txn, hread, hsb, hne0, hwf, hpending⟩ := h.log
    refine ⟨startHandle t, .inr ?_⟩
    rw [headOf_eq hread, hsb.start, if_neg hne0]
    exact ⟨h.journalBlocks_ne, h.log, h.stale.mono (Nat.le_succ _)⟩
  · have h := clean_of_commit hstart rfl hset hok
    rw [writeAll_commitClosed hne hok] at h
    obtain ⟨sb, hread, hsb⟩ := h.superblock
    refine ⟨_, .inl ⟨h, ?_⟩⟩
    rw [headOf_eq hread, hsb.start, if_pos rfl]

theorem inv_step (hro : m.readOnly = false) {e : Event} {s s' : Sys}
    (hwithin : Within m oldest e s) (hinv : Inv m oldest s) (h : Step m e s s') :
    Inv m oldest s' := by
  cases h with
  | foreign _ hlog => exact inv_foreign hlog hwithin.1 hwithin.2
  | mount hinit =>
    obtain ⟨t, ⟨hclean, -⟩ | hdirty⟩ := hinv
    · obtain ⟨rfl, hclean⟩ := hclean.mount hinit
      exact hclean.mono (Nat.le_succ _)
    · exact (hdirty.mount hro hinit).1
  | write hb image => exact Clean.write hinv hb image
  | commit hset hok => exact clean_of_commit hinv.startHandle rfl hset hok
  | stop => exact ⟨_, .inl ⟨hinv, rfl⟩⟩
  | stopInCommit hne hset hok hcrash =>
    exact inv_stopInCommit hinv hwithin hne hset hok hcrash
  | stopInMount hstop =>
    obtain ⟨t, ⟨hclean, rfl⟩ | hdirty⟩ := hinv
    · rw [funext fun b => hstop b nofun]
      exact ⟨t, .inl ⟨hclean, rfl⟩⟩
    · exact ⟨t, .inr (hdirty.stopInMount hstop)⟩

def Run (m : Mount) (oldest : ℕ) : Sys → Sys → Prop :=
  Relation.ReflTransGen fun s s' => ∃ e, Within m oldest e s ∧ Step m e s s'

theorem Run.inv (hro : m.readOnly = false) {s : Sys}
    (h : Run m oldest .blank s) : Inv m oldest s := by
  induction h with
  | refl => trivial
  | tail _ hstep ih =>
    obtain ⟨e, hwithin, hstep⟩ := hstep
    exact inv_step hro hwithin ih hstep

/-! ## A log of three transactions -/

namespace ThreeTxns

open WrappedLog (mount ones txn)

/-- A journal superblock whose log starts in block 1 with transaction 6. -/
def superblock : Image := setStart (setSequence StaleLog.superblock 6) 1

def disk : Disk := fun b =>
  if b = 10 then superblock
  else if b = 11 then descriptor 6 50
  else if b = 12 then ones
  else if b = 13 then putHeader zero commitBlock 6
  else if b = 14 then descriptor 7 52
  else if b = 15 then ones
  else if b = 16 then putHeader zero commitBlock 7
  else if b = 17 then descriptor 8 51
  else if b = 18 then ones
  else if b = 19 then putHeader zero commitBlock 8
  else zero

def txns : List Txn := [txn 50, txn 52, txn 51]

theorem read_zero : readLog mount disk 0 = some superblock :=
  readLog_eq disk 0 (by decide)

theorem wellFormedLog : WellFormedLog mount (logArea superblock) (readLog mount disk) txns := by
  refine ⟨by decide, by decide, by simp [txns], ⟨?_, ?_, ?_, trivial⟩, by decide, ?_, ?_⟩
  · exact txnAt rfl rfl rfl rfl (by decide)
  · exact txnAt rfl rfl rfl rfl (by decide)
  · exact txnAt rfl rfl rfl rfl (by decide)
  · left
    intro _ b hb
    rw [← readLog_inj (by decide) hb]
    decide
  exact avoids [50, 52, 51] (by decide)

theorem foreignLog : ForeignLog mount disk superblock txns :=
  ⟨read_zero, by decide, by decide, .inr ⟨by decide, wellFormedLog⟩⟩

/-- The journal after all three transactions have been replayed. -/
def journal : Journal := { loadJournal superblock with sequence := 7 }

/-- The device after all three transactions have been replayed. -/
def recovered : Disk :=
  update (writeAll [(50, ones), (52, ones), (51, ones)] disk) 10
    (setStart (setSequence superblock 7) 0)

/-- A mount replays the log and goes on with transaction 7. -/
theorem initJournal_eq {txns : List Txn} (hlog : ForeignLog mount d superblock txns) :
    initJournal mount d = (some journal, update (writeAll (foreignWrites superblock txns) d) 10
      (setStart (setSequence superblock 7) 0)) := by
  have hsb : Superblock mount (loadJournal superblock) 1 superblock :=
    ⟨by decide, rfl, rfl, rfl, by decide⟩
  obtain ⟨hread, -, -, ⟨hstart, -⟩ | ⟨-, hwf⟩⟩ := hlog
  · exact absurd hstart (by decide)
  exact initJournal_dirty rfl hread hsb Nat.one_ne_zero hwf

theorem mount_three : initJournal mount disk = (some journal, recovered) :=
  initJournal_eq foreignLog

/-- The same volume with the first transaction only. -/
def single : Disk := fun b => if b ≤ 13 then disk b else zero

theorem foreignLog_single : ForeignLog mount single superblock [txn 50] := by
  refine ⟨rfl, by decide, by decide, .inr ⟨by decide, ?_⟩⟩
  refine ⟨by decide, by decide, by simp, ⟨?_, trivial⟩, by decide, ?_, ?_⟩
  · exact txnAt rfl rfl rfl rfl (by decide)
  · left
    intro _ b hb
    rw [← readLog_inj (by decide) hb]
    decide
  · exact avoids [50] (by decide)

/-- The device after the first transaction has been replayed. -/
def recoveredSingle : Disk :=
  update (writeAll [(50, ones)] single) 10 (setStart (setSequence superblock 7) 0)

theorem mount_single : initJournal mount single = (some journal, recoveredSingle) :=
  initJournal_eq foreignLog_single

theorem stale_single : StaleWithin AnyBlock mount (sMaxlen superblock) single
    (sSequence superblock) 0 := by
  intro p hp hpj b hb hmagic _
  have hall : ∀ p < 16, 0 < p → (header (single (10 + p))).magic = magicNumber →
      age 6 (header (single (10 + p))).sequence ≤ 0 := by decide
  have hlt : p < 16 := hpj
  rw [← readLog_inj (by omega) hb] at hmagic ⊢
  exact hall p hlt hp hmagic

end ThreeTxns

open ThreeTxns

/-- After a log of three transactions has been recovered, the numbers of the second and
the third are given out again: a stop inside the next commit makes recovery replay the
third over what has been committed since. -/
theorem mount_replays_checkpointed :
    ∃ (m : Mount) (d : Disk) (pending : List Entry) (k : ℕ) (t : Journal) (d' : Disk),
      m.readOnly = false ∧
      Relation.ReflTransGen (fun s s' => ∃ e, Step m e s s') .blank (.down d pending k) ∧
      initJournal m d = (some t, d') ∧ headOf m d ≠ 0 ∧
      (∃ p b, 0 < p ∧ p < t.journalBlocks ∧ readLog m d' p = some b ∧
        (header b).magic = magicNumber ∧ ¬ later t.sequence (header b).sequence) ∧
      ∃ b, IsHome m t.journalBlocks b ∧ d' b ≠ writeAll pending d b := by
  let d := StaleLog.stopped journal recovered
  -- the second and the third transaction are still in the log, and the third is taken for the
  -- one after the new transaction
  have heval : (initJournal mount d).1.map (fun t => (t.sequence, t.journalBlocks)) = some (8, 16) ∧
      headOf mount d = 1 ∧ (initJournal mount d).2 51 0 = 1 ∧
      (header ((initJournal mount d).2 17)).magic = magicNumber ∧
      (header ((initJournal mount d).2 17)).sequence = 8 := by
    decide +kernel
  generalize hinit : initJournal mount d = r at heval
  obtain ⟨t', d'⟩ := r
  obtain ⟨ht, hhead, h51, hmagic, hsequence⟩ := heval
  obtain ⟨t', rfl, hvals⟩ := Option.map_eq_some_iff.mp ht
  obtain ⟨hseq, hblocks⟩ := Prod.mk.inj hvals
  have hforeign := Step.foreign (s := .blank) (by simp) foreignLog
  have hmount : Step mount .mount (.down ThreeTxns.disk (foreignWrites ThreeTxns.superblock txns) 0)
    (.up journal recovered (0 + 1)) := Step.mount mount_three
  have hstop := Step.stopInCommit (k := 0 + 1) (t := journal) StaleLog.closed_ne
    StaleLog.closedSet (by decide) (StaleLog.crashState journal recovered)
  rw [hhead] at hstop
  have hrun : Relation.ReflTransGen (fun s s' => ∃ e, Step mount e s s') .blank
      (.down _ StaleLog.closed (0 + 1 + 1)) :=
    ((Relation.ReflTransGen.single ⟨_, hforeign⟩).tail ⟨_, hmount⟩).tail ⟨_, hstop⟩
  refine ⟨mount, d, _, _, t', d', rfl, hrun, hinit, by rw [hhead]; decide,
    ⟨7, _, by decide, by rw [hblocks]; decide, readLog_eq d' 7 (by decide), hmagic, ?_⟩, 51, ?_, ?_⟩
  · rw [hseq, hsequence]
    decide
  · rw [hblocks]
    decide
  intro h
  exact absurd (h51.symm.trans (congrFun h 0)) (by decide)

/-- **No transaction is replayed after a newer mount**, in every run whose foreign logs
hold at most one transaction to replay: after a recovery the next sequence number is
later than that of every journal block in the log, and a mount writes exactly the images
that no mount before it has checkpointed. -/
theorem mount_replays_pending_only (m : Mount) (hro : m.readOnly = false) (oldest : ℕ)
    (d : Disk) (pending : List Entry) (k : ℕ) (hrun : Run m oldest .blank (.down d pending k))
    (hwithin : Within m oldest .mount (.down d pending k)) (t : Journal) (d' : Disk)
    (hinit : initJournal m d = (some t, d')) :
    (headOf m d ≠ 0 → ∀ p, 0 < p → p < t.journalBlocks → ∀ b, readLog m d' p = some b →
      (header b).magic = magicNumber → later t.sequence (header b).sequence) ∧
    ∀ b, IsHome m t.journalBlocks b → d' b = writeAll pending d b := by
  have hk : oldest + k < 2 ^ 31 - 1 := hwithin
  obtain ⟨t0, ⟨hclean, rfl⟩ | hdirty⟩ := hrun.inv hro
  · obtain ⟨sb, hread, hsb⟩ := hclean.superblock
    obtain ⟨rfl, -⟩ := hclean.mount hinit
    refine ⟨fun hhead => ?_, fun b _ => rfl⟩
    exact absurd ((headOf_eq hread).trans hsb.start) hhead
  obtain ⟨-, hseq, hblocks, hlog, hhome⟩ := hdirty.mount hro hinit
  rw [hblocks, hseq]
  refine ⟨fun _ p hp hpj b hb hmagic => ?_, hhome⟩
  rw [hlog p hp hpj] at hb
  have hage := hdirty.stale p hp hpj b hb hmagic trivial
  exact later_nextSequence (getBe_lt b 8 4) (by omega)

theorem mount_replays_pending_only_single : (headOf WrappedLog.mount single ≠ 0 → ∀ p, 0 < p →
      p < journal.journalBlocks → ∀ b, readLog WrappedLog.mount recoveredSingle p = some b →
        (header b).magic = magicNumber → later journal.sequence (header b).sequence) ∧
    ∀ b, IsHome WrappedLog.mount journal.journalBlocks b →
      recoveredSingle b = writeAll
        (foreignWrites ThreeTxns.superblock [WrappedLog.txn 50]) single b := by
  have hforeign := Step.foreign (s := .blank) (by simp) foreignLog_single
  have hrun : Run mount 0 .blank (.down single
      (foreignWrites ThreeTxns.superblock [txn 50]) 0) := by
    refine Relation.ReflTransGen.single ⟨.foreign single ThreeTxns.superblock
      [txn 50], ?_, hforeign⟩
    exact ⟨by simp, stale_single⟩
  exact mount_replays_pending_only mount rfl 0 single _ 0 hrun
    (show 0 + 0 < 2 ^ 31 - 1 by decide) _ _ mount_single

/-! ## A recovery that is stopped -/

/-- **A recovery can be stopped and started again.**  Whatever the stop left of its home writes,
done, torn or lost, the next mount ends with the journal and the device of the stopped one. -/
theorem recovery_restarts (hro : m.readOnly = false) {sb : Image} {txns : List Txn} {d' : Disk}
    (hlog : ForeignLog m d sb txns)
    (hstop : ∀ b, (∀ w ∈ foreignWrites sb txns, w.1 ≠ b) → d' b = d b) :
    initJournal m d' = initJournal m d := by
  rw [foreignWrites] at hstop
  obtain ⟨hread, hsup, hlen, ⟨-, rfl⟩ | ⟨hstart, hwf⟩⟩ := hlog
  · rw [funext fun b => hstop b nofun]
  have hsb : Superblock m (loadJournal sb) (sStart sb) sb := ⟨hsup, rfl, rfl, rfl, rfl⟩
  have hsame : ∀ p < sMaxlen sb, readLog m d p = readLog m d' p := readLog_of_stop hwf hstop
  have hread' := (hsame 0 (Nat.pos_of_ne_zero hlen)).symm.trans hread
  rw [initJournal_dirty hro hread hsb hstart hwf,
    initJournal_dirty hro hread' hsb hstart (hwf.congr hsame)]
  generalize logWrites (logRevoked (sSequence sb) txns) (sSequence sb) txns = ws at hstop
  congr 2
  funext b
  rw [writeAll_eq_getLast, writeAll_eq_getLast ws d]
  cases hlast : (ws.filter fun w => w.1 == b).getLast? with
  | some w => rfl
  | none =>
    -- the log does not name the block
    refine hstop b fun w hw => ?_
    simpa using List.filter_eq_nil_iff.mp (List.getLast?_eq_none_iff.mp hlast) w hw

/-- The first home write is torn. -/
theorem recovery_restarts_torn :
    initJournal mount (update ThreeTxns.disk 50 zero) = (some journal, recovered) := by
  refine (recovery_restarts rfl foreignLog fun b hb => ?_).trans mount_three
  exact update_of_ne (hb (50, ones) (List.Mem.head _)).symm _ _

end AvoryOS.Ext3
