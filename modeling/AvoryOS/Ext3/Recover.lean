import AvoryOS.Ext3.Format

/-!
# Mounting and replaying the journal

`initJournal` is the mount-time entry: it validates the journal superblock, replays a
dirty log with `recoverJournal`, and retires it.  Recovery walks the log twice.  The
first walk, `scanLog`, finds the committed transactions and collects their revoke
records; the second, `replayLog`, copies payloads to their home blocks.

Loops run on fuel so that the definitions evaluate; `recoverJournal` passes the length
of the log, and every iteration advances by at least one block.  A failed replay keeps
the home blocks it had already written.
-/

namespace AvoryOS.Ext3

open Bytes

/-- The log a recovery works on: the fields of the journal superblock it uses. -/
structure LogArea where
  /-- `s_maxlen`. -/
  journalBlocks : ℕ
  /-- `s_start`. -/
  start : ℕ
  /-- `s_sequence`. -/
  sequence : ℕ
  /-- `journal_features_incompat`. -/
  incompat : ℕ
  deriving DecidableEq, Repr

namespace LogArea

def is64 (l : LogArea) : Bool := feature64bit l.incompat
def revokes (l : LogArea) : Bool := featureRevoke l.incompat

end LogArea

/-- Sequence numbers are `uint32_t`. -/
def nextSequence (s : ℕ) : ℕ := (s + 1) % 2 ^ 32

/-! ## The validating walk -/

def revokeEntrySize (is64 : Bool) : ℕ := if is64 then 8 else 4

def revokeEntry (is64 : Bool) (b : Image) (off : ℕ) : ℕ :=
  if is64 then getBe b off 4 * 2 ^ 32 + getBe b (off + 4) 4 else getBe b off 4

/-- The block numbers a revoke block lists, or `none` when its length or one of its
records is out of range. -/
def readRevokes (m : Mount) (is64 : Bool) (b : Image) : Option (List ℕ) :=
  let bytes := getBe b 12 4
  if bytes < 16 ∨ m.blockSize < bytes ∨ (bytes - 16) % revokeEntrySize is64 ≠ 0 then none
  else
    let blocks := (List.range ((bytes - 16) / revokeEntrySize is64)).map
      fun i => revokeEntry is64 b (16 + i * revokeEntrySize is64)
    if blocks.all (· < m.blocksCount) then some blocks else none

/-- The inner loop of the first walk, at log position `scan` with the revoke records
collected so far: the position of the commit block that completes the transaction. -/
def scanTxn (m : Mount) (l : LogArea) (rd : ℕ → Option Image) (sequence : ℕ) :
    ℕ → ℕ → List ℕ → Option (ℕ × List ℕ)
  | 0, _, _ => none
  | fuel + 1, scan, revoked =>
    if l.journalBlocks ≤ scan then none
    else match rd scan with
      | none => none
      | some b =>
        let h := header b
        if h.magic ≠ magicNumber ∨ h.sequence ≠ sequence then none
        else if h.blocktype = commitBlock then some (scan, revoked)
        else if h.blocktype = descriptorBlock then
          match descriptorTagCountForLog m l.is64 rd l.journalBlocks scan sequence b with
          | none => none
          | some (_, payload, _) =>
            if l.journalBlocks - scan < payload + 1 then none
            else scanTxn m l rd sequence fuel (scan + 1 + payload) revoked
        else if h.blocktype = revokeBlock ∧ l.revokes = true then
          match readRevokes m l.is64 b with
          | none => none
          | some blocks => scanTxn m l rd sequence fuel (scan + 1) (revoked ++ blocks)
        else none

/-- A revoke record: the block and the transaction that revoked it. -/
abbrev Revoked := ℕ × ℕ

/-- What the first walk found: the number of complete transactions, the position after
the last of them, and their revoke records. -/
structure Scanned where
  recovered : ℕ
  committedEnd : ℕ
  revoked : List Revoked

/-- The outer loop of the first walk. -/
def scanLog (m : Mount) (l : LogArea) (rd : ℕ → Option Image) : ℕ → ℕ → ℕ → Scanned → Scanned
  | 0, _, _, acc => acc
  | fuel + 1, pos, sequence, acc =>
    if l.journalBlocks ≤ pos then acc
    else match scanTxn m l rd sequence (l.journalBlocks + 1) pos [] with
      | none => acc
      | some (commit, blocks) =>
        scanLog m l rd fuel (commit + 1) (nextSequence sequence)
          ⟨acc.recovered + 1, commit + 1, acc.revoked ++ blocks.map (·, sequence)⟩

/-! ## The copying walk -/

/-- `(int32_t)(a - b) >= 0`. -/
def sequenceGeq (a b : ℕ) : Bool := (a + 2 ^ 32 - b) % 2 ^ 32 < 2 ^ 31

def isRevoked (revoked : List Revoked) (target sequence : ℕ) : Bool :=
  revoked.any fun r => r.1 == target && sequenceGeq r.2 sequence

/-- The image a tag logs, with an escaped first word restored. -/
def payloadImage (flags : ℕ) (b : Image) : Image :=
  if flagEscape flags then putBe b 0 4 magicNumber else b

/-- The tag loop of the second walk.  `Bool` is false on `goto replay_failed`. -/
def replayTags (m : Mount) (is64 includeUuids : Bool) (revoked : List Revoked)
    (sequence : ℕ) (desc : Image) : ℕ → ℕ → ℕ → Disk → Bool × Disk
  | 0, _, _, d => (true, d)
  | tags + 1, offset, dataCursor, d =>
    let flags := tagFlags desc offset
    let target := tagBlock is64 desc offset
    let offset' := offset + tagSize is64 + if includeUuids && !flagSameUuid flags then 16 else 0
    if flagDeleted flags then
      if m.blocksCount ≤ target then (false, d)
      else replayTags m is64 includeUuids revoked sequence desc tags offset' dataCursor d
    else match readLog m d dataCursor with
      | none => (false, d)
      | some b =>
        if m.blocksCount ≤ target then (false, d)
        else
          let d' := if isRevoked revoked target sequence then d
            else Function.update d target (payloadImage flags b)
          replayTags m is64 includeUuids revoked sequence desc tags offset' (dataCursor + 1) d'

/-- The inner loop of the second walk: the position after the commit block, or `none` on
`goto replay_failed`. -/
def replayTxn (m : Mount) (l : LogArea) (s : Scanned) (sequence : ℕ) :
    ℕ → ℕ → Disk → Option ℕ × Disk
  | 0, _, d => (none, d)
  | fuel + 1, cursor, d =>
    if s.committedEnd ≤ cursor then (none, d)
    else match readLog m d cursor with
      | none => (none, d)
      | some b =>
        let h := header b
        if h.magic ≠ magicNumber ∨ h.sequence ≠ sequence then (none, d)
        else if h.blocktype = commitBlock then (some (cursor + 1), d)
        else if h.blocktype = revokeBlock then
          replayTxn m l s sequence fuel (cursor + 1) d
        else if h.blocktype ≠ descriptorBlock then (none, d)
        else match descriptorTagCountForLog m l.is64 (readLog m d) l.journalBlocks cursor
            sequence b with
          | none => (none, d)
          | some (tags, payload, includeUuids) =>
            match replayTags m l.is64 includeUuids s.revoked sequence b tags 12 (cursor + 1) d with
            | (false, d') => (none, d')
            | (true, d') => replayTxn m l s sequence fuel (cursor + 1 + payload) d'

/-- The outer loop of the second walk. -/
def replayLog (m : Mount) (l : LogArea) (s : Scanned) : ℕ → ℕ → ℕ → Disk → Bool × Disk
  | 0, _, _, d => (false, d)
  | fuel + 1, pos, sequence, d =>
    if s.committedEnd ≤ pos then (true, d)
    else match replayTxn m l s sequence (s.committedEnd + 1) pos d with
      | (none, d') => (false, d')
      | (some pos', d') => replayLog m l s fuel pos' (nextSequence sequence) d'

/-! ## Recovery and mount -/

/-- `ext3_recover_journal`: success, and the device afterwards. -/
def recoverJournal (m : Mount) (l : LogArea) (d : Disk) : Bool × Disk :=
  if l.start = 0 ∨ tagCapacity m l.is64 = 0 ∨ l.journalBlocks < 4 ∨
      l.journalBlocks ≤ l.start then (false, d)
  else
    let s := scanLog m l (readLog m d) (l.journalBlocks + 1) l.start l.sequence ⟨0, l.start, []⟩
    if s.recovered = 0 then (false, d)
    else replayLog m l s (s.committedEnd + 1) l.start l.sequence d

/-- The journal state a mount keeps in memory. -/
structure Journal where
  sequence : ℕ
  startBlock : ℕ
  journalBlocks : ℕ
  incompat : ℕ
  /-- The first sixteen bytes are `journal_uuid`. -/
  uuid : Image

namespace Journal

def is64 (t : Journal) : Bool := feature64bit t.incompat

end Journal

/-- The checks `ext3_init_journal` makes on the journal superblock. -/
def supportedFormat (m : Mount) (sb : Image) : Bool :=
  let h := header sb
  h.magic == magicNumber && (h.blocktype == superblockV1 || h.blocktype == superblockV2) &&
    sBlocksize sb == m.blockSize && sFeatureIncompat sb < 4 &&
    !(m.has64bit && !feature64bit (sFeatureIncompat sb))

def logArea (sb : Image) : LogArea :=
  ⟨sMaxlen sb, sStart sb, sSequence sb, sFeatureIncompat sb⟩

/-- The journal state read from the superblock. -/
def loadJournal (sb : Image) : Journal :=
  ⟨sSequence sb, 0, sMaxlen sb, sFeatureIncompat sb, fun i => sb (48 + i)⟩

/-- `ext3_init_journal` on a volume with a journal inode. -/
def initJournal (m : Mount) (d : Disk) : Option Journal × Disk :=
  match readLog m d 0 with
  | none => (none, d)
  | some sb =>
    if supportedFormat m sb then
      let t := loadJournal sb
      if sStart sb = 0 then (some t, d)
      else if m.readOnly then (none, d)
      else match recoverJournal m (logArea sb) d with
        | (false, d') => (none, d')
        | (true, d') =>
          let sequence := nextSequence t.sequence
          let sb' := setStart (setSequence sb sequence) 0
          (some { t with sequence := sequence }, Function.update d' (m.journalMap 0) sb')
    else (none, d)

end AvoryOS.Ext3
