import AvoryOS.Ext3.Recover

/-!
# The contents of a log, and how recovery reads them

A log is a list of transactions; a transaction is a list of descriptors, each with its
tags and payloads, and revoke blocks, closed by a commit block.  `LogAt` says that the
log blocks from a given position spell such a list.  It fixes the meaning of the bytes
and nothing about who wrote them: tags may or may not share a UUID, payloads may be
escaped, descriptors may be short.

`scanLog_eq` says that the validating walk of recovery finds exactly these transactions
and their revoke records.
-/

namespace AvoryOS.Ext3

open Bytes Device List

/-! ## Contents of a log -/

/-- A tag, the home block it names, and the image it logs. -/
structure LogTag where
  flags : ℕ
  target : ℕ
  /-- The image after unescaping; unused for a deleted tag. -/
  image : Image

/-- A log block other than a commit block, with the payloads that belong to it. -/
inductive LogItem
  | descriptor (tags : List LogTag)
  | revoke (blocks : List ℕ)

/-- The items of a transaction, without its commit block. -/
abbrev Txn := List LogItem

/-- How many payload blocks follow a descriptor with these tags. -/
def payloadCount (tags : List LogTag) : ℕ := tags.countP fun t => !flagDeleted t.flags

namespace LogItem

def size : LogItem → ℕ
  | descriptor tags => 1 + payloadCount tags
  | revoke _ => 1

def revokes : LogItem → List ℕ
  | descriptor _ => []
  | revoke blocks => blocks

def tags : LogItem → List LogTag
  | descriptor tags => tags
  | revoke _ => []

theorem size_pos (i : LogItem) : 0 < i.size := by cases i <;> simp [size]

end LogItem

open LogItem

/-- The log blocks of a transaction without its commit block. -/
def itemsSize (items : List LogItem) : ℕ := (items.map size).sum

def itemsRevokes (items : List LogItem) : List ℕ := items.flatMap revokes

def itemsTags (items : List LogItem) : List LogTag := items.flatMap tags

@[simp] theorem itemsSize_nil : itemsSize [] = 0 := rfl
@[simp] theorem itemsSize_cons (i : LogItem) (is : List LogItem) :
    itemsSize (i :: is) = i.size + itemsSize is := by simp [itemsSize]
@[simp] theorem itemsRevokes_nil : itemsRevokes [] = [] := rfl
@[simp] theorem itemsRevokes_cons (i : LogItem) (is : List LogItem) :
    itemsRevokes (i :: is) = i.revokes ++ itemsRevokes is := by simp [itemsRevokes]

theorem length_le_itemsSize (items : List LogItem) : items.length ≤ itemsSize items := by
  induction items with
  | nil => simp
  | cons i is ih =>
    have := i.size_pos
    simp only [length_cons, itemsSize_cons]
    omega

def logSize (txns : List Txn) : ℕ := (txns.map fun t => itemsSize t + 1).sum

@[simp] theorem logSize_nil : logSize [] = 0 := rfl
@[simp] theorem logSize_cons (t : Txn) (ts : List Txn) :
    logSize (t :: ts) = itemsSize t + 1 + logSize ts := by simp [logSize]

theorem length_le_logSize (txns : List Txn) : txns.length ≤ logSize txns := by
  induction txns with
  | nil => simp
  | cons t ts ih => simp only [length_cons, logSize_cons]; omega

/-- The sequence number after a list of transactions. -/
def sequenceAfter : ℕ → List Txn → ℕ
  | s, [] => s
  | s, _ :: ts => sequenceAfter (nextSequence s) ts

/-- The revoke records of a log, each with the transaction that holds it. -/
def logRevoked : ℕ → List Txn → List Revoked
  | _, [] => []
  | s, t :: ts => (itemsRevokes t).map (·, s) ++ logRevoked (nextSequence s) ts

/-- The logged images in log order, each with the transaction that holds it. -/
def logged : ℕ → List Txn → List (ℕ × LogTag)
  | _, [] => []
  | s, t :: ts => ((itemsTags t).filter fun g => !flagDeleted g.flags).map (s, ·) ++
      logged (nextSequence s) ts

/-- A logged image is dropped when a transaction at least as late revokes its block. -/
def revokedBy (rs : List Revoked) (e : ℕ × LogTag) : Bool := isRevoked rs e.2.target e.1

/-- The image of block `b` in the last transaction that logs it and is not revoked. -/
def lastLogged (sequence : ℕ) (txns : List Txn) (b : ℕ) : Option Image :=
  (((logged sequence txns).filter fun e =>
    e.2.target == b && !revokedBy (logRevoked sequence txns) e).getLast?).map (·.2.image)

/-! ## Log blocks that hold these contents -/

/-- Tags start at `off`, one after another, the last one flagged. -/
def TagsAt (bs : ℕ) (is64 : Bool) (desc : Image) : ℕ → List LogTag → Prop
  | _, [] => False
  | off, t :: ts =>
    tagFlags desc off = t.flags ∧ tagBlock is64 desc off = t.target ∧
    off + tagSize is64 + (if flagSameUuid t.flags then 0 else 16) ≤ bs ∧
    if flagLastTag t.flags then ts = []
    else TagsAt bs is64 desc (off + tagSize is64 + if flagSameUuid t.flags then 0 else 16) ts

/-- The payloads of the tags that have one start at log position `pos`. -/
def PayloadsAt (rd : ℕ → Option Image) : ℕ → List LogTag → Prop
  | _, [] => True
  | pos, t :: ts =>
    if flagDeleted t.flags then PayloadsAt rd pos ts
    else (∃ raw, rd pos = some raw ∧ payloadImage t.flags raw = t.image) ∧
      PayloadsAt rd (pos + 1) ts

/-- A revoke block listing the given blocks. -/
structure RevokesAt (m : Mount) (is64 : Bool) (b : Image) (blocks : List ℕ) : Prop where
  length_eq : getBe b 12 4 = 16 + blocks.length * revokeEntrySize is64
  fits : 16 + blocks.length * revokeEntrySize is64 ≤ m.blockSize
  entries : ∀ i (hi : i < blocks.length),
    revokeEntry is64 b (16 + i * revokeEntrySize is64) = blocks[i]
  bounded : ∀ x ∈ blocks, x < m.blocksCount

/-- The blocks of one item start at log position `pos`. -/
def ItemAt (m : Mount) (l : LogArea) (rd : ℕ → Option Image) (sequence pos : ℕ) : LogItem → Prop
  | .descriptor tags => ∃ b, rd pos = some b ∧
      header b = ⟨magicNumber, descriptorBlock, sequence⟩ ∧
      (tags.head?.map fun t => flagSameUuid t.flags) = some false ∧
      TagsAt m.blockSize l.is64 b 12 tags ∧ PayloadsAt rd (pos + 1) tags ∧
      ∀ t ∈ tags, t.target < m.blocksCount
  | .revoke blocks => ∃ b, rd pos = some b ∧
      header b = ⟨magicNumber, revokeBlock, sequence⟩ ∧ l.revokes = true ∧
      RevokesAt m l.is64 b blocks

def ItemsAt (m : Mount) (l : LogArea) (rd : ℕ → Option Image) (sequence : ℕ) :
    ℕ → List LogItem → Prop
  | _, [] => True
  | pos, i :: is => ItemAt m l rd sequence pos i ∧ ItemsAt m l rd sequence (pos + i.size) is

/-- A committed transaction starts at log position `pos`. -/
def TxnAt (m : Mount) (l : LogArea) (rd : ℕ → Option Image) (sequence pos : ℕ) (t : Txn) : Prop :=
  ItemsAt m l rd sequence pos t ∧ ∃ b, rd (pos + itemsSize t) = some b ∧
    header b = ⟨magicNumber, commitBlock, sequence⟩

/-- Consecutive committed transactions start at log position `pos`. -/
def LogAt (m : Mount) (l : LogArea) (rd : ℕ → Option Image) : ℕ → ℕ → List Txn → Prop
  | _, _, [] => True
  | sequence, pos, t :: ts => TxnAt m l rd sequence pos t ∧
      LogAt m l rd (nextSequence sequence) (pos + itemsSize t + 1) ts

/-- There is no commit record with the next sequence number from `pos` on. -/
def NoCommit (l : LogArea) (rd : ℕ → Option Image) (sequence pos : ℕ) : Prop :=
  ∀ p, pos ≤ p → p < l.journalBlocks → ∀ b, rd p = some b →
    header b ≠ ⟨magicNumber, commitBlock, sequence⟩

/-- What follows the last committed transaction is stale, when the next block is not a
header with the next sequence number, or incomplete, when no commit record with that
number was written. -/
def Tail (l : LogArea) (rd : ℕ → Option Image) (sequence pos : ℕ) : Prop :=
  (pos < l.journalBlocks → ∀ b, rd pos = some b → isTxnHeader (header b) sequence = false) ∨
    NoCommit l rd sequence pos

/-! ## The tags of a descriptor -/

variable {m : Mount} {l : LogArea} {rd : ℕ → Option Image}

variable {is64 : Bool} {desc : Image}

theorem TagsAt.length_mul_le {bs off : ℕ} {t : LogTag} {ts : List LogTag}
    (h : TagsAt bs is64 desc off (t :: ts)) :
    off + (t :: ts).length * tagSize is64 + (if flagSameUuid t.flags then 0 else 16) ≤ bs := by
  induction ts generalizing off t with
  | nil =>
    have hfit := h.2.2.1
    rw [length_singleton]
    omega
  | cons u us ih =>
    obtain ⟨-, -, -, hrest⟩ := h
    by_cases hl : flagLastTag t.flags = true
    · rw [if_pos hl] at hrest
      cases hrest
    rw [if_neg hl] at hrest
    have hle := ih hrest
    rw [length_cons, Nat.succ_mul]
    omega

/-- The first tag of a descriptor carries a UUID, so its tags are within capacity. -/
theorem TagsAt.length_le_capacity {tags : List LogTag}
    (hhead : (tags.head?.map fun t => flagSameUuid t.flags) = some false)
    (h : TagsAt m.blockSize is64 desc 12 tags) : tags.length ≤ tagCapacity m is64 := by
  cases tags with
  | nil => exact h.elim
  | cons t ts =>
    have hsame : flagSameUuid t.flags = false := by simpa using hhead
    have hbound := h.length_mul_le
    simp only [hsame, Bool.false_eq_true, if_false] at hbound
    rw [tagCapacity_eq, Nat.le_div_iff_mul_le (tagSize_pos is64)]
    omega

theorem payloadCount_cons (t : LogTag) (ts : List LogTag) :
    payloadCount (t :: ts) = payloadCount ts + if flagDeleted t.flags then 0 else 1 := by
  cases h : flagDeleted t.flags <;> simp [payloadCount, h]

theorem uuidSize_eq (flags : ℕ) : (if (true && !flagSameUuid flags) = true then 16 else 0) =
    if flagSameUuid flags = true then 0 else 16 := by
  cases flagSameUuid flags <;> rfl

theorem tagCountFrom_eq {bs : ℕ} : ∀ {tags : List LogTag} {off : ℕ}, TagsAt bs is64 desc off tags →
      ∀ fuel count payload, tags.length ≤ fuel →
        tagCountFrom bs is64 true desc fuel off count payload =
          some (count + tags.length, payload + payloadCount tags) := by
  intro tags
  induction tags with
  | nil => intro off h; exact h.elim
  | cons t ts ih =>
    intro off h fuel count payload hfuel
    obtain ⟨hflags, -, hfit, hrest⟩ := h
    cases fuel with
    | zero => simp at hfuel
    | succ fuel =>
      have hoff : off + tagSize is64 ≤ bs := by omega
      rw [tagCountFrom, if_pos hoff]
      simp only [hflags, uuidSize_eq]
      rw [if_neg (by omega), payloadCount_cons]
      by_cases hl : flagLastTag t.flags = true
      · rw [if_pos hl] at hrest
        subst hrest
        rw [if_pos hl]
        cases flagDeleted t.flags <;> simp [payloadCount]
      rw [if_neg hl] at hrest
      rw [if_neg hl, ih hrest fuel _ _ (by simpa using hfuel)]
      simp only [length_cons, Option.some.injEq, Prod.mk.injEq]
      split <;> omega

/-! ## The validating walk -/

variable {sequence pos : ℕ}

/-- Every item boundary of a committed transaction is one of its own headers. -/
theorem TxnAt.head {items : List LogItem} (h : TxnAt m l rd sequence pos items) :
    ∃ b, rd pos = some b ∧ isTxnHeader (header b) sequence = true := by
  obtain ⟨hitems, b, hb, hh⟩ := h
  cases items with
  | nil => exact ⟨b, by simpa using hb, by simp [hh, isTxnHeader]⟩
  | cons i is =>
    cases i with
    | descriptor tags =>
      obtain ⟨⟨c, hc, hch, -⟩, -⟩ := hitems
      exact ⟨c, hc, by simp [hch, isTxnHeader]⟩
    | revoke blocks =>
      obtain ⟨⟨c, hc, hch, -⟩, -⟩ := hitems
      exact ⟨c, hc, by simp [hch, isTxnHeader]⟩

theorem TxnAt.tail {i : LogItem} {is : List LogItem}
    (h : TxnAt m l rd sequence pos (i :: is)) : TxnAt m l rd sequence (pos + i.size) is := by
  obtain ⟨⟨-, hrest⟩, b, hb, hh⟩ := h
  refine ⟨hrest, b, ?_, hh⟩
  rw [← hb, itemsSize_cons]
  congr 1
  omega

/-- The reading with UUIDs is accepted for a descriptor of a committed transaction. -/
theorem tagCountForLog_eq {tags : List LogTag} {b : Image}
    (hhead : (tags.head?.map fun t => flagSameUuid t.flags) = some false)
    (htags : TagsAt m.blockSize l.is64 b 12 tags)
    (hnext : ∃ c, rd (pos + 1 + payloadCount tags) = some c ∧
      isTxnHeader (header c) sequence = true)
    (hfit : pos + 1 + payloadCount tags < l.journalBlocks) :
    descriptorTagCountForLog m l.is64 rd l.journalBlocks pos sequence b =
      some (tags.length, payloadCount tags, true) := by
  obtain ⟨c, hc, hch⟩ := hnext
  have hcount : descriptorTagCount m l.is64 true b = some (tags.length, payloadCount tags) := by
    have := tagCountFrom_eq htags (tagCapacity m l.is64) 0 0 (htags.length_le_capacity hhead)
    simpa [descriptorTagCount] using this
  have haccept : acceptCount rd l.journalBlocks pos sequence
      (some (tags.length, payloadCount tags)) = some (tags.length, payloadCount tags) := by
    simp only [acceptCount]
    rw [if_neg (by omega), if_neg (by omega), hc]
    simp [hch]
  simp [descriptorTagCountForLog, hcount, haccept]

theorem readRevokes_eq {b : Image} {blocks : List ℕ}
    (h : RevokesAt m is64 b blocks) : readRevokes m is64 b = some blocks := by
  have hpos : 0 < revokeEntrySize is64 := by cases is64 <;> decide
  have hlist : (range blocks.length).map
      (fun i => revokeEntry is64 b (16 + i * revokeEntrySize is64)) = blocks := by
    apply ext_getElem (by simp)
    intro i _ hi
    simpa using h.entries i hi
  have hdiv : blocks.length * revokeEntrySize is64 / revokeEntrySize is64 = blocks.length :=
    Nat.mul_div_cancel _ hpos
  have hall : blocks.all (fun x => decide (x < m.blocksCount)) = true := by
    simpa [all_eq_true] using h.bounded
  simp only [readRevokes, h.length_eq, Nat.add_sub_cancel_left, Nat.mul_mod_left, hdiv, hlist,
    hall, if_true]
  rw [if_neg]
  have := h.fits
  omega

/-- The first walk reaches the commit block of a committed transaction and has collected
its revoke records. -/
theorem scanTxn_eq : ∀ {items : List LogItem} {pos : ℕ}, TxnAt m l rd sequence pos items →
      pos + itemsSize items < l.journalBlocks →
      ∀ fuel revoked, items.length < fuel →
        scanTxn m l rd sequence fuel pos revoked =
          some (pos + itemsSize items, revoked ++ itemsRevokes items) := by
  intro items
  induction items with
  | nil =>
    intro pos h hend fuel revoked hfuel
    obtain ⟨-, b, hb, hh⟩ := h
    cases fuel with
    | zero => simp at hfuel
    | succ fuel =>
      simp only [itemsSize_nil, Nat.add_zero] at hb hend
      rw [scanTxn, if_neg (by omega), hb]
      simp [hh]
  | cons i is ih =>
    intro pos h hend fuel revoked hfuel
    have htail := h.tail
    have hnext := htail.head
    rw [itemsSize_cons] at hend
    rcases fuel with _ | fuel
    · simp at hfuel
    have hfuel' : is.length < fuel := by simpa using hfuel
    rw [scanTxn, if_neg (by omega)]
    cases i with
    | descriptor tags =>
      obtain ⟨⟨⟨b, hb, hh, hhead, htags, -⟩, -⟩, -⟩ := h
      have hsz : pos + (descriptor tags).size = pos + 1 + payloadCount tags := by
        simp only [size]
        omega
      rw [hsz] at htail hnext
      have hcount := tagCountForLog_eq hhead htags hnext (by omega)
      rw [hb]
      simp only [hh, hcount, ne_eq, not_true_eq_false, or_self, if_false,
        show ¬ descriptorBlock = commitBlock by decide, if_true]
      rw [if_neg (by omega), ih htail (by omega) fuel revoked hfuel', itemsSize_cons,
        itemsRevokes_cons]
      simp only [revokes, nil_append, Option.some.injEq, Prod.mk.injEq, and_true]
      omega
    | revoke blocks =>
      obtain ⟨⟨⟨b, hb, hh, hrev, hblocks⟩, -⟩, -⟩ := h
      rw [hb]
      simp only [hh, ne_eq, not_true_eq_false, or_self, if_false,
        show ¬ revokeBlock = commitBlock by decide,
        show ¬ revokeBlock = descriptorBlock by decide, hrev, and_self, if_true,
        readRevokes_eq hblocks]
      have hsz : (revoke blocks).size = 1 := rfl
      rw [hsz] at htail hend
      rw [ih htail (by omega) fuel (revoked ++ blocks) hfuel', itemsSize_cons, itemsRevokes_cons]
      simp only [revokes, append_assoc, Option.some.injEq, Prod.mk.injEq, and_true]
      omega

/-- Without a commit record of the expected sequence number the first walk finds no
complete transaction. -/
theorem scanTxn_none_of_noCommit : ∀ fuel {pos : ℕ} (revoked : List ℕ), NoCommit l rd sequence pos →
      scanTxn m l rd sequence fuel pos revoked = none := by
  intro fuel
  induction fuel with
  | zero => intro pos revoked _; rfl
  | succ fuel ih =>
    intro pos revoked hno
    have hmono : ∀ {q}, pos ≤ q → NoCommit l rd sequence q := fun hq p hp => hno p (hq.trans hp)
    rw [scanTxn]
    by_cases hend : l.journalBlocks ≤ pos
    · rw [if_pos hend]
    rw [if_neg hend]
    rcases hb : rd pos with _ | b
    · rfl
    have hne := hno pos le_rfl (by omega) b hb
    by_cases hbad : (header b).magic ≠ magicNumber ∨ (header b).sequence ≠ sequence
    · simp [if_pos hbad]
    have hok : (header b).magic = magicNumber ∧ (header b).sequence = sequence := by
      simpa only [ne_eq, not_or, not_not] using hbad
    have htype : (header b).blocktype ≠ commitBlock := by
      intro ht
      apply hne
      rw [← hok.1, ← ht, ← hok.2]
    simp only [if_neg hbad, if_neg htype]
    split
    · split
      · rfl
      split
      · rfl
      · exact ih _ (hmono (by omega))
    · split
      · split
        · rfl
        · exact ih _ (hmono (by omega))
      · rfl

/-- The first walk stops at a block that is no header of the expected transaction. -/
theorem scanTxn_none_of_head (h : pos < l.journalBlocks → ∀ b, rd pos = some b →
      isTxnHeader (header b) sequence = false) (fuel : ℕ) (revoked : List ℕ) :
    scanTxn m l rd sequence fuel pos revoked = none := by
  cases fuel with
  | zero => rfl
  | succ fuel =>
    rw [scanTxn]
    by_cases hend : l.journalBlocks ≤ pos
    · rw [if_pos hend]
    rw [if_neg hend]
    cases hb : rd pos with
    | none => rfl
    | some b =>
      have hhead := h (by omega) b hb
      by_cases hbad : (header b).magic ≠ magicNumber ∨ (header b).sequence ≠ sequence
      · simp [if_pos hbad]
      have hok : (header b).magic = magicNumber ∧ (header b).sequence = sequence := by
        simpa only [ne_eq, not_or, not_not] using hbad
      simp only [isTxnHeader, hok.1, hok.2, beq_self_eq_true, Bool.true_and, Bool.or_eq_false_iff,
        beq_eq_false_iff_ne] at hhead
      simp [hhead]

theorem Tail.scanTxn_none (h : Tail l rd sequence pos) (fuel : ℕ)
    (revoked : List ℕ) : scanTxn m l rd sequence fuel pos revoked = none := by
  rcases h with h | h
  · exact scanTxn_none_of_head h fuel revoked
  · exact scanTxn_none_of_noCommit fuel revoked h

theorem scanLog_eq : ∀ {txns : List Txn} {sequence pos : ℕ}, LogAt m l rd sequence pos txns →
      pos + logSize txns ≤ l.journalBlocks →
      Tail l rd (sequenceAfter sequence txns) (pos + logSize txns) →
      ∀ fuel n revoked, txns.length < fuel →
        scanLog m l rd fuel pos sequence ⟨n, pos, revoked⟩ =
          ⟨n + txns.length, pos + logSize txns, revoked ++ logRevoked sequence txns⟩ := by
  intro txns
  induction txns with
  | nil =>
    intro sequence pos _ _ hno fuel n revoked hfuel
    cases fuel with
    | zero => simp at hfuel
    | succ fuel =>
      simp only [logSize_nil, Nat.add_zero, sequenceAfter] at hno
      rw [scanLog, hno.scanTxn_none]
      simp [logRevoked]
  | cons t ts ih =>
    intro sequence pos h hend hno fuel n revoked hfuel
    obtain ⟨ht, hts⟩ := h
    rw [logSize_cons] at hend hno
    have hlen := length_le_itemsSize t
    cases fuel with
    | zero => simp at hfuel
    | succ fuel =>
      have hpos : pos + (itemsSize t + 1 + logSize ts) =
          pos + itemsSize t + 1 + logSize ts := by omega
      rw [hpos] at hno
      rw [scanLog, if_neg (by omega), scanTxn_eq ht (by omega) (l.journalBlocks + 1) [] (by omega)]
      simp only [nil_append]
      rw [ih hts (by omega) hno fuel (n + 1) _ (by simpa using hfuel)]
      simp only [logRevoked, append_assoc, length_cons, logSize_cons, Scanned.mk.injEq, and_true]
      omega

end AvoryOS.Ext3
