import AvoryOS.Ext3.Log

/-!
# Recovery replays exactly the committed transactions

Over a well-formed log that does not run past the end of its area, recovery performs
the writes of the unrevoked tags in log order (`recoverJournal_eq`), so that each home
block ends up with the image `lastLogged` names and every other block is untouched.

A JBD2 log area is circular: the block after `s_maxlen - 1` is `s_first`.  Recovery does
not follow the log around that corner, and `CircularLog` states where this matters.
-/

namespace AvoryOS.Ext3

open Bytes Device Function List

variable {m : Mount} {l : LogArea} {rd : ℕ → Option Image}

/-! ## The copying walk -/

/-- The writes of the tags of one transaction, in order. -/
def tagWrites (rs : List Revoked) (sequence : ℕ) (tags : List LogTag) : List (ℕ × Image) :=
  tags.filterMap fun t =>
    if flagDeleted t.flags || isRevoked rs t.target sequence then none
    else some (t.target, t.image)

def logWrites (rs : List Revoked) : ℕ → List Txn → List (ℕ × Image)
  | _, [] => []
  | s, t :: ts => tagWrites rs s (itemsTags t) ++ logWrites rs (nextSequence s) ts

theorem tagWrites_append (rs : List Revoked) (sequence : ℕ) (a b : List LogTag) :
    tagWrites rs sequence (a ++ b) = tagWrites rs sequence a ++ tagWrites rs sequence b := by
  simp [tagWrites]

/-- No tag names a block of the log itself. -/
def AvoidsLog (m : Mount) (l : LogArea) (tags : List LogTag) : Prop :=
  ∀ t ∈ tags, ∀ p < l.journalBlocks, m.journalMap p ≠ t.target

/-- The log blocks of a device read as `rd` says. -/
def LogReads (m : Mount) (l : LogArea) (rd : ℕ → Option Image) (d : Disk) : Prop :=
  ∀ p < l.journalBlocks, readLog m d p = rd p

variable {d : Disk}

theorem LogReads.update (h : LogReads m l rd d) {x : ℕ}
    (hx : ∀ p < l.journalBlocks, m.journalMap p ≠ x) (b : Image) :
    LogReads m l rd (update d x b) := by
  intro p hp
  rw [← h p hp]
  simp only [readLog]
  rw [update_of_ne (hx p hp)]

theorem LogReads.writeAll {ws : List (ℕ × Image)} (h : LogReads m l rd d)
    (hws : ∀ w ∈ ws, ∀ p < l.journalBlocks, m.journalMap p ≠ w.1) :
    LogReads m l rd (writeAll ws d) := by
  induction ws generalizing d with
  | nil => exact h
  | cons w ws ih =>
    exact ih (h.update (hws w mem_cons_self) w.2) (fun v hv => hws v (mem_cons_of_mem _ hv))

variable {sequence : ℕ}

variable {rs : List Revoked} {tags : List LogTag}

theorem mem_tagWrites
    {w : ℕ × Image} (hw : w ∈ tagWrites rs sequence tags) : ∃ t ∈ tags, t.target = w.1 := by
  obtain ⟨t, ht, htw⟩ := mem_filterMap.mp hw
  split at htw
  · simp at htw
  · exact ⟨t, ht, by rw [← Option.some.inj htw]⟩

theorem LogReads.tagWrites (h : LogReads m l rd d)
    (hav : AvoidsLog m l tags) (rs : List Revoked) (sequence : ℕ) :
    LogReads m l rd (Device.writeAll (tagWrites rs sequence tags) d) := by
  apply h.writeAll
  intro w hw p hp
  obtain ⟨t, ht, htw⟩ := mem_tagWrites hw
  exact htw ▸ hav t ht p hp

theorem replayTags_eq {is64 : Bool} {desc : Image} :
    ∀ {tags : List LogTag} {off pos : ℕ} {d : Disk}, TagsAt m.blockSize is64 desc off tags →
      PayloadsAt rd pos tags → (∀ t ∈ tags, t.target < m.blocksCount) →
      AvoidsLog m l tags → LogReads m l rd d → pos + payloadCount tags ≤ l.journalBlocks →
      replayTags m is64 true rs sequence desc tags.length off pos d =
        (true, writeAll (tagWrites rs sequence tags) d) := by
  intro tags
  induction tags with
  | nil => intro off pos d h; exact h.elim
  | cons t ts ih =>
    intro off pos d htags hpay hlt hav hrd hend
    obtain ⟨hflags, hblock, -, hrest⟩ := htags
    have htlt := hlt t mem_cons_self
    -- the rest of the loop, from whatever device the first tag leaves
    have hgo : ∀ pos' d', PayloadsAt rd pos' ts → LogReads m l rd d' →
        pos' + payloadCount ts ≤ l.journalBlocks →
        replayTags m is64 true rs sequence desc ts.length
          (off + tagSize is64 + if flagSameUuid t.flags then 0 else 16) pos' d' =
        (true, writeAll (tagWrites rs sequence ts) d') := by
      intro pos' d' hpay' hrd' hend'
      by_cases hl : flagLastTag t.flags = true
      · rw [if_pos hl] at hrest
        subst hrest
        simp [replayTags, tagWrites]
      · rw [if_neg hl] at hrest
        exact ih hrest hpay' (fun u hu => hlt u (mem_cons_of_mem _ hu))
          (fun u hu => hav u (mem_cons_of_mem _ hu)) hrd' hend'
    rw [payloadCount_cons] at hend
    rw [length_cons, replayTags]
    simp only [hflags, hblock, uuidSize_eq]
    rw [if_neg (show ¬ m.blocksCount ≤ t.target by omega)]
    by_cases hdel : flagDeleted t.flags = true
    · simp only [PayloadsAt, if_pos hdel] at hpay
      rw [hgo pos d hpay hrd (by omega)]
      simp [tagWrites, hdel]
    simp only [PayloadsAt, if_neg hdel] at hpay
    obtain ⟨⟨raw, hraw, himg⟩, hpay⟩ := hpay
    rw [if_neg hdel] at hend
    rw [if_neg hdel, hrd pos (by omega), hraw]
    by_cases hrv : isRevoked rs t.target sequence = true
    · simp only [if_pos hrv]
      rw [hgo (pos + 1) d hpay hrd (by omega)]
      simp [tagWrites, hrv, htlt]
    · simp only [if_neg hrv, himg]
      rw [hgo (pos + 1) _ hpay (hrd.update (hav t mem_cons_self) t.image) (by omega)]
      simp [tagWrites, hdel, hrv, htlt]

variable {s : Scanned}

theorem replayTxn_eq (hs : s.committedEnd ≤ l.journalBlocks) :
    ∀ {items : List LogItem} {pos : ℕ} {d : Disk}, TxnAt m l rd sequence pos items →
      AvoidsLog m l (itemsTags items) → LogReads m l rd d →
      pos + itemsSize items < s.committedEnd → ∀ fuel, items.length < fuel →
        replayTxn m l s sequence fuel pos d =
          (some (pos + itemsSize items + 1),
            writeAll (tagWrites s.revoked sequence (itemsTags items)) d) := by
  intro items
  induction items with
  | nil =>
    intro pos d h _ hrd hend fuel hfuel
    obtain ⟨-, b, hb, hh⟩ := h
    cases fuel with
    | zero => simp at hfuel
    | succ fuel =>
      simp only [itemsSize_nil, Nat.add_zero] at hb hend
      rw [replayTxn, if_neg (by omega), hrd pos (by omega), hb]
      simp [hh, itemsTags, tagWrites]
  | cons i is ih =>
    intro pos d h hav hrd hend fuel hfuel
    have htail := h.tail
    have hnext := htail.head
    have havi : AvoidsLog m l i.tags := fun t ht => hav t (by simp [itemsTags, ht])
    have havs : AvoidsLog m l (itemsTags is) := by
      intro t ht
      refine hav t ?_
      simp only [itemsTags, flatMap_cons, mem_append]
      exact .inr ht
    have hsplit : itemsTags (i :: is) = i.tags ++ itemsTags is := by simp [itemsTags]
    rw [itemsSize_cons] at hend
    rcases fuel with _ | fuel
    · simp at hfuel
    have hfuel' : is.length < fuel := by simpa using hfuel
    rw [replayTxn, if_neg (by omega), hrd pos (by omega), hsplit, tagWrites_append,
      writeAll_append, itemsSize_cons]
    cases i with
    | descriptor tags =>
      obtain ⟨⟨⟨b, hb, hh, hhead, htags, hpay, hlt⟩, -⟩, -⟩ := h
      have hsz : (LogItem.descriptor tags).size = 1 + payloadCount tags := rfl
      have hsz' : pos + (1 + payloadCount tags) = pos + 1 + payloadCount tags := by omega
      rw [hsz, hsz'] at htail hnext
      -- the descriptor is read again from the device being written
      have hcount : descriptorTagCountForLog m l.is64 (readLog m d) l.journalBlocks pos
          sequence b = some (tags.length, payloadCount tags, true) := by
        apply tagCountForLog_eq hhead htags ?_ (by omega)
        rw [hrd _ (by omega)]
        exact hnext
      have htg : replayTags m l.is64 true s.revoked sequence b tags.length 12 (pos + 1) d =
          (true, writeAll (tagWrites s.revoked sequence tags) d) :=
        replayTags_eq htags hpay hlt havi hrd (by omega)
      have hrd' : LogReads m l rd (writeAll (tagWrites s.revoked sequence tags) d) :=
        hrd.tagWrites havi s.revoked sequence
      rw [hb]
      simp only [hh, ne_eq, not_true_eq_false, or_self, if_false,
        show ¬ descriptorBlock = commitBlock by decide,
        show ¬ descriptorBlock = revokeBlock by decide, hcount, htg]
      rw [ih htail havs hrd' (by omega) fuel hfuel']
      simp only [LogItem.tags, Prod.mk.injEq, Option.some.injEq, and_true]
      omega
    | revoke blocks =>
      obtain ⟨⟨⟨b, hb, hh, -⟩, -⟩, -⟩ := h
      have hsz : (LogItem.revoke blocks).size = 1 := rfl
      rw [hsz] at htail
      rw [hb]
      simp only [hh, ne_eq, not_true_eq_false, or_self, if_false,
        show ¬ revokeBlock = commitBlock by decide, if_true]
      rw [ih htail havs hrd (by omega) fuel hfuel']
      simp only [LogItem.tags, tagWrites, filterMap_nil, writeAll_nil, Prod.mk.injEq,
        Option.some.injEq, and_true]
      omega

theorem replayLog_eq (hs : s.committedEnd ≤ l.journalBlocks) :
    ∀ {txns : List Txn} {sequence pos : ℕ} {d : Disk}, LogAt m l rd sequence pos txns →
      (∀ t ∈ txns, AvoidsLog m l (itemsTags t)) → LogReads m l rd d →
      pos + logSize txns = s.committedEnd → ∀ fuel, txns.length < fuel →
        replayLog m l s fuel pos sequence d =
          (true, writeAll (logWrites s.revoked sequence txns) d) := by
  intro txns
  induction txns with
  | nil =>
    intro sequence pos d _ _ _ hend fuel hfuel
    cases fuel with
    | zero => simp at hfuel
    | succ fuel =>
      rw [replayLog, if_pos (by simp at hend; omega)]
      rfl
  | cons t ts ih =>
    intro sequence pos d h hav hrd hend fuel hfuel
    obtain ⟨ht, hts⟩ := h
    rw [logSize_cons] at hend
    have hlen := length_le_itemsSize t
    have havt := hav t mem_cons_self
    cases fuel with
    | zero => simp at hfuel
    | succ fuel =>
      rw [replayLog, if_neg (by omega),
        replayTxn_eq hs ht havt hrd (by omega) (s.committedEnd + 1) (by omega)]
      simp only
      rw [ih hts (fun u hu => hav u (mem_cons_of_mem _ hu))
        (hrd.tagWrites havt s.revoked sequence) (by omega) fuel (by simpa using hfuel)]
      simp [logWrites, writeAll_append]

/-! ## Recovery -/

/-- A log that recovery can be asked to replay: consecutive committed transactions from
`s_start`, inside the log area, followed by nothing that looks committed, and touching
no block of the log. -/
structure WellFormedLog (m : Mount) (l : LogArea) (rd : ℕ → Option Image)
    (txns : List Txn) : Prop where
  start_pos : 0 < l.start
  four_le : 4 ≤ l.journalBlocks
  nonempty : txns ≠ []
  log : LogAt m l rd l.sequence l.start txns
  fits : l.start + logSize txns ≤ l.journalBlocks
  tail : Tail l rd (sequenceAfter l.sequence txns) (l.start + logSize txns)
  avoids : ∀ t ∈ txns, AvoidsLog m l (itemsTags t)

variable {txns : List Txn}

/-- Recovery performs the writes of the unrevoked tags in log order, and succeeds. -/
theorem recoverJournal_eq (h : WellFormedLog m l (readLog m d) txns) :
    recoverJournal m l d =
      (true, writeAll (logWrites (logRevoked l.sequence txns) l.sequence txns) d) := by
  have hlen : 0 < txns.length := length_pos_of_ne_nil h.nonempty
  have hsize := length_le_logSize txns
  have hfit := h.fits
  have hstart := h.start_pos
  have hfour := h.four_le
  have hcap := tagCapacity_pos m l.is64
  have hscan := scanLog_eq h.log h.fits h.tail (l.journalBlocks + 1) 0 [] (by omega)
  rw [recoverJournal, if_neg (by omega)]
  simp only [hscan]
  rw [if_neg (by omega)]
  exact replayLog_eq h.fits h.log h.avoids (fun p _ => rfl) rfl _ (by omega)

theorem tagWrites_eq (rs : List Revoked) (sequence : ℕ) (tags : List LogTag) :
    tagWrites rs sequence tags =
      ((((tags.filter fun g => !flagDeleted g.flags).map (sequence, ·)).filter
        fun e => !revokedBy rs e).map fun e => (e.2.target, e.2.image)) := by
  induction tags with
  | nil => rfl
  | cons t ts ih =>
    simp only [tagWrites] at ih ⊢
    cases hdel : flagDeleted t.flags <;> cases hrv : isRevoked rs t.target sequence <;>
      simpa [hdel, hrv, revokedBy] using ih

theorem logWrites_eq (rs : List Revoked) (sequence : ℕ) (txns : List Txn) :
    logWrites rs sequence txns =
      ((logged sequence txns).filter fun e => !revokedBy rs e).map
        fun e => (e.2.target, e.2.image) := by
  induction txns generalizing sequence with
  | nil => rfl
  | cons t ts ih =>
    rw [logWrites, logged, filter_append, map_append, tagWrites_eq, ih]

theorem writeAll_logWrites (sequence : ℕ) (txns : List Txn) (d : Disk) (b : ℕ) :
    writeAll (logWrites (logRevoked sequence txns) sequence txns) d b =
      (lastLogged sequence txns b).getD (d b) := by
  have hfilter : (((logged sequence txns).filter
        fun e => !revokedBy (logRevoked sequence txns) e).map
          fun e => (e.2.target, e.2.image)).filter (fun w => w.1 == b) =
      ((logged sequence txns).filter fun e =>
        e.2.target == b && !revokedBy (logRevoked sequence txns) e).map
          fun e => (e.2.target, e.2.image) := by
    rw [filter_map, filter_filter]
    rfl
  rw [writeAll_eq_getLast, logWrites_eq, hfilter, getLast?_map, Option.map_map]
  rfl

/-! ## The circular area -/

/-- The log block at a position counted from `s_start` without going round. -/
def wrapPos (first maxlen pos : ℕ) : ℕ := if pos < maxlen then pos else first + (pos - maxlen)

/-- The log as JBD2 lays it out: positions run from `s_start` and go round to `s_first`
after `s_maxlen - 1`, and the log does not run into its own start. -/
structure CircularLog (m : Mount) (l : LogArea) (first : ℕ) (rd : ℕ → Option Image)
    (txns : List Txn) : Prop where
  first_pos : 0 < first
  first_le : first ≤ l.start
  start_lt : l.start < l.journalBlocks
  four_le : 4 ≤ l.journalBlocks
  nonempty : txns ≠ []
  log : LogAt m l (fun p => rd (wrapPos first l.journalBlocks p)) l.sequence l.start txns
  fits : logSize txns ≤ l.journalBlocks - first
  tail : Tail { l with journalBlocks := l.journalBlocks + (l.start - first) }
    (fun p => rd (wrapPos first l.journalBlocks p)) (sequenceAfter l.sequence txns)
    (l.start + logSize txns)
  avoids : ∀ t ∈ txns, AvoidsLog m l (itemsTags t)

section Congr

variable {rd' : ℕ → Option Image}

theorem PayloadsAt.congr : ∀ {tags : List LogTag} {pos : ℕ},
    (∀ p < pos + payloadCount tags, rd p = rd' p) → PayloadsAt rd pos tags →
      PayloadsAt rd' pos tags := by
  intro tags
  induction tags with
  | nil => intro pos _ _; trivial
  | cons t ts ih =>
    intro pos hrd h
    rw [payloadCount_cons] at hrd
    simp only [PayloadsAt] at h ⊢
    split
    · rename_i hdel
      rw [if_pos hdel] at h hrd
      exact ih hrd h
    rename_i hdel
    rw [if_neg hdel] at h hrd
    obtain ⟨⟨raw, hraw, himg⟩, hrest⟩ := h
    refine ⟨⟨raw, ?_, himg⟩, ih (fun p hp => hrd p (by omega)) hrest⟩
    rw [← hrd pos (by omega)]
    exact hraw

theorem ItemAt.congr {pos : ℕ} {i : LogItem}
    (hrd : ∀ p < pos + i.size, rd p = rd' p) (h : ItemAt m l rd sequence pos i) :
    ItemAt m l rd' sequence pos i := by
  have hpos := hrd pos (by have := i.size_pos; omega)
  cases i with
  | descriptor tags =>
    obtain ⟨b, hb, hh, hhead, htags, hpay, hlt⟩ := h
    refine ⟨b, hpos ▸ hb, hh, hhead, htags, hpay.congr fun p hp => hrd p ?_, hlt⟩
    simp only [LogItem.size]
    omega
  | revoke blocks =>
    obtain ⟨b, hb, hrest⟩ := h
    exact ⟨b, hpos ▸ hb, hrest⟩

theorem ItemsAt.congr : ∀ {items : List LogItem} {pos : ℕ},
    (∀ p < pos + itemsSize items, rd p = rd' p) → ItemsAt m l rd sequence pos items →
      ItemsAt m l rd' sequence pos items := by
  intro items
  induction items with
  | nil => intro pos _ _; trivial
  | cons i is ih =>
    intro pos hrd h
    rw [itemsSize_cons] at hrd
    exact ⟨h.1.congr fun p hp => hrd p (by omega), ih (fun p hp => hrd p (by omega)) h.2⟩

theorem LogAt.congr : ∀ {txns : List Txn} {sequence pos : ℕ},
    (∀ p < pos + logSize txns, rd p = rd' p) → LogAt m l rd sequence pos txns →
      LogAt m l rd' sequence pos txns := by
  intro txns
  induction txns with
  | nil => intro sequence pos _ _; trivial
  | cons t ts ih =>
    intro sequence pos hrd h
    rw [logSize_cons] at hrd
    obtain ⟨⟨hitems, b, hb, hh⟩, hrest⟩ := h
    refine ⟨⟨hitems.congr fun p hp => hrd p (by omega), b, ?_, hh⟩,
      ih (fun p hp => hrd p (by omega)) hrest⟩
    rw [← hrd _ (by omega)]
    exact hb

end Congr

/-- A circular log whose committed transactions end before the corner reads the same
without going round. -/
theorem CircularLog.wellFormedLog {first : ℕ}
    (h : CircularLog m l first rd txns) (hend : l.start + logSize txns ≤ l.journalBlocks) :
    WellFormedLog m l rd txns := by
  have hsame : ∀ p < l.journalBlocks, rd (wrapPos first l.journalBlocks p) = rd p := by
    intro p hp
    rw [wrapPos, if_pos hp]
  have hfirst := h.first_pos
  have hle := h.first_le
  refine ⟨by omega, h.four_le, h.nonempty, h.log.congr fun p hp => hsame p (by omega), hend, ?_,
    h.avoids⟩
  rcases h.tail with htail | htail
  · left
    intro hlt b hb
    exact htail (by simp only; omega) b ((hsame _ hlt).trans hb)
  · right
    intro p hp hlt b hb
    exact htail p hp (by simp only; omega) b ((hsame _ hlt).trans hb)

/-! ## A log around the corner -/

namespace WrappedLog

/-- A volume of 1 KiB blocks whose eight journal blocks start at block 10. -/
def mount : Mount := ⟨0, Mount.zero_le_six, 100, false, by decide, false, true, fun p => 10 + p,
  fun _ _ _ h => Nat.add_left_cancel h⟩

def descriptor (sequence target : ℕ) : Image :=
  putBe (putBe (putHeader zero descriptorBlock sequence) 12 4 target) 18 2 8

def ones : Image := fun _ => 1

/-- Log blocks 5, 6 and 7 hold transaction 7, blocks 1, 2 and 3 transaction 8. -/
def disk : Disk := fun b =>
  if b = 15 then descriptor 7 50
  else if b = 16 then ones
  else if b = 17 then putHeader zero commitBlock 7
  else if b = 11 then descriptor 8 51
  else if b = 12 then ones
  else if b = 13 then putHeader zero commitBlock 8
  else zero

def area : LogArea := ⟨8, 5, 7, 0⟩

def txn (target : ℕ) : Txn := [.descriptor [⟨8, target, ones⟩]]

theorem flags_eight : flagEscape 8 = false ∧ flagSameUuid 8 = false ∧
    flagDeleted 8 = false ∧ flagLastTag 8 = true := by decide

variable {target : ℕ}

theorem readLog_eq (d : Disk) : ∀ p < 90, readLog mount d p = some (d (10 + p)) := by
  intro p hp
  have hphys : mount.journalMap p = 10 + p := rfl
  have hcount : mount.blocksCount = 100 := rfl
  simp only [readLog, hphys]
  rw [if_neg (by omega)]

theorem readLog_inj {p : ℕ} {b : Image} (hp : p < 90) (hb : readLog mount d p = some b) :
    d (10 + p) = b :=
  Option.some.inj ((readLog_eq d p hp).symm.trans hb)

/-- A transaction of one block is well formed wherever it stands. -/
theorem txnAt (hl : l.is64 = false) {pos : ℕ}
    (hdesc : rd pos = some (descriptor sequence target)) (hdata : rd (pos + 1) = some ones)
    (hcommit : rd (pos + 2) = some (putHeader zero commitBlock sequence))
    (h : header (descriptor sequence target) = ⟨magicNumber, descriptorBlock, sequence⟩ ∧
      tagFlags (descriptor sequence target) 12 = 8 ∧
      tagBlock false (descriptor sequence target) 12 = target ∧ target < 100 ∧
      header (putHeader zero commitBlock sequence) = ⟨magicNumber, commitBlock, sequence⟩) :
    TxnAt mount l rd sequence pos (txn target) := by
  obtain ⟨hheader, hflags, hblock, ht, hend⟩ := h
  obtain ⟨hesc, hsame, hdel, hlast⟩ := flags_eight
  have hsize : itemsSize (txn target) = 2 := by simp [txn, LogItem.size, payloadCount, hdel]
  refine ⟨⟨⟨_, hdesc, hheader, ?_, ?_, ?_, ?_⟩, trivial⟩, _, ?_, hend⟩
  · simp [hsame]
  · rw [hl]
    refine ⟨hflags, hblock, ?_, ?_⟩
    · simp only [hsame]
      decide
    · simp [hlast]
  · simp only [PayloadsAt, hdel]
    exact ⟨⟨ones, hdata, by simp [payloadImage, hesc]⟩, trivial⟩
  · simpa [mount] using ht
  · rw [hsize]
    exact hcommit

theorem avoids (targets : List ℕ) (h : ∀ x ∈ targets, 10 + l.journalBlocks ≤ x) :
    ∀ u ∈ targets.map txn, AvoidsLog mount l (itemsTags u) := by
  intro u hu t ht p hp
  obtain ⟨x, hx, rfl⟩ := mem_map.mp hu
  have htarget : t.target = x := by
    simp only [txn, itemsTags, flatMap_cons, LogItem.tags, flatMap_nil,
      append_nil, mem_singleton] at ht
    rw [ht]
  have hle := h x hx
  simp only [mount]
  omega

theorem circularLog : CircularLog mount area 1 (readLog mount disk) [txn 50, txn 51] := by
  refine ⟨by decide, by decide, by decide, by decide, by simp, ⟨?_, ?_, trivial⟩, by decide, ?_, ?_⟩
  · exact txnAt rfl rfl rfl rfl (by decide)
  · exact txnAt rfl rfl rfl rfl (by decide)
  · left
    intro _ b hb
    rw [← readLog_inj (by decide) hb]
    decide
  · exact avoids [50, 51] (by decide)

/-- A journal superblock for the same area, whose log starts in block 2. -/
def superblock : Image :=
  putBe (putBe (putBe (putBe zero 16 4 8) 20 4 1) 24 4 7) 28 4 2

/-- The two transactions one behind the other. -/
def straightDisk : Disk := fun b =>
  if b = 12 then descriptor 7 50
  else if b = 13 then ones
  else if b = 14 then putHeader zero commitBlock 7
  else if b = 15 then descriptor 8 51
  else if b = 16 then ones
  else if b = 17 then putHeader zero commitBlock 8
  else zero

theorem circularLog_straight :
    CircularLog mount (logArea superblock) (sFirst superblock) (readLog mount straightDisk)
      [txn 50, txn 51] := by
  refine ⟨by decide, by decide, by decide, by decide, by simp, ⟨?_, ?_, trivial⟩, by decide, ?_, ?_⟩
  · exact txnAt rfl rfl rfl rfl (by decide)
  · exact txnAt rfl rfl rfl rfl (by decide)
  · left
    intro _ b hb
    rw [← readLog_inj (by decide) hb]
    decide
  · exact avoids [50, 51] (by decide)

end WrappedLog

/-- **Recovery replays exactly the committed transactions** of a log that does not go
round the end of its area: every home block gets the image from the last transaction
that logs it and is not revoked, and every other block is unchanged. -/
theorem recoverJournal_restores_lastLogged (m : Mount) (sb : Image) (d : Disk)
    (txns : List Txn) (h : CircularLog m (logArea sb) (sFirst sb) (readLog m d) txns)
    (hend : sStart sb + logSize txns ≤ sMaxlen sb) :
    ∃ d', recoverJournal m (logArea sb) d = (true, d') ∧
      ∀ b, d' b = (lastLogged (sSequence sb) txns b).getD (d b) :=
  ⟨_, recoverJournal_eq (h.wellFormedLog hend), writeAll_logWrites _ _ d⟩

open WrappedLog

theorem recoverJournal_restores_straight :
    ∃ d', recoverJournal mount (logArea superblock) straightDisk = (true, d') ∧
      ∀ b, d' b = (lastLogged (sSequence superblock) [txn 50, txn 51] b).getD (straightDisk b) :=
  recoverJournal_restores_lastLogged _ _ _ _ circularLog_straight (by decide)

/-- Recovery of a log that goes round the corner succeeds and drops the committed
transactions behind it. -/
theorem recoverJournal_drops_wrapped :
    ∃ (m : Mount) (l : LogArea) (first : ℕ) (d : Disk) (txns : List Txn),
      CircularLog m l first (readLog m d) txns ∧ (recoverJournal m l d).1 = true ∧
      ∃ b, (recoverJournal m l d).2 b ≠ (lastLogged l.sequence txns b).getD (d b) := by
  -- to recovery only the first of the two transactions is there
  refine ⟨mount, area, 1, disk, [txn 50, txn 51], circularLog, by decide +kernel, 51, ?_⟩
  intro h
  exact absurd (congrFun h 0) (by decide)

end AvoryOS.Ext3
