import AvoryOS.Lib.Bytes
import AvoryOS.Lib.Device

/-!
# The on-disk journal format

The constant part of a mount, and the byte layout the journal code reads and writes:
the twelve-byte header, the journal superblock, and the block tags of a descriptor.
All numbers are big-endian.

A descriptor holds its tags one after another from offset 12.  A tag without
`SAME_UUID` is followed by sixteen bytes of UUID, and the tag with `LAST_TAG` ends the
list.  A descriptor written without the UUIDs is accepted too, so
`descriptorTagCountForLog` walks the block both ways and takes the reading whose
payloads end at another header of the same transaction.

## Main definitions

* `Mount` — the geometry of a mounted volume.
* `header`, `tagFlags`, `tagBlock` — the fields of a journal block.
* `tagCapacity`, `descPos`, `payloadPos` — where a write-set goes in the log.
* `descriptorTagCount`, `descriptorTagCountForLog` — how many tags a descriptor has.
-/

namespace AvoryOS.Ext3

open Bytes Nat

abbrev Disk := ℕ → Image

/-- The part of `ext2_mount_t` that the superblock fixes at mount time. -/
structure Mount where
  /-- `s_log_block_size`; larger values are refused by `ext4_check_feature_flags`. -/
  logBlockSize : ℕ
  logBlockSize_le : logBlockSize ≤ 6
  blocksCount : ℕ
  /-- Block numbers are 64-bit, and 32-bit without the `64BIT` feature. -/
  has64bit : Bool
  blocksCount_lt : blocksCount < if has64bit then 2 ^ 64 else 2 ^ 32
  readOnly : Bool
  /-- `kmalloc` has the scratch buffers of a commit, which are then kept. -/
  scratch : Bool
  /-- `ext2_get_block_num` on the journal inode, whose allocation is fixed; 0 is a hole. -/
  journalMap : ℕ → ℕ
  journalMap_inj : ∀ p q, journalMap p ≠ 0 → journalMap p = journalMap q → p = q

namespace Mount

theorem zero_le_six : 0 ≤ 6 := by decide

/-- A volume of `n` blocks without a journal. -/
def plain (n : ℕ) (h : n < 2 ^ 32) : Mount :=
  ⟨0, zero_le_six, n, false, h, false, true, fun _ => 0, fun _ _ h => absurd rfl h⟩

/-- `1024 << s_log_block_size`. -/
def blockSize (m : Mount) : ℕ := 1024 * 2 ^ m.logBlockSize

theorem le_blockSize (m : Mount) : 1024 ≤ m.blockSize :=
  Nat.le_mul_of_pos_right 1024 (Nat.two_pow_pos m.logBlockSize)

theorem blockSize_le (m : Mount) : m.blockSize ≤ 65536 := by
  have h : 2 ^ m.logBlockSize ≤ 2 ^ 6 := Nat.pow_le_pow_right (by decide) m.logBlockSize_le
  unfold blockSize
  omega

end Mount

/-! ## Constants -/

def magicNumber : ℕ := 0xc03b3998

def descriptorBlock : ℕ := 1
def commitBlock : ℕ := 2
def superblockV1 : ℕ := 3
def superblockV2 : ℕ := 4
def revokeBlock : ℕ := 5

/-- `JBD_FLAG_ESCAPE`: the first word of the payload was zeroed in the log. -/
def flagEscape (flags : ℕ) : Bool := flags.testBit 0
/-- `JBD_FLAG_SAME_UUID`: no UUID follows the tag. -/
def flagSameUuid (flags : ℕ) : Bool := flags.testBit 1
/-- `JBD_FLAG_DELETED`: the tag has no payload. -/
def flagDeleted (flags : ℕ) : Bool := flags.testBit 2
/-- `JBD_FLAG_LAST_TAG`: the tag ends its descriptor. -/
def flagLastTag (flags : ℕ) : Bool := flags.testBit 3

/-- `JBD_FEATURE_INCOMPAT_REVOKE`. -/
def featureRevoke (incompat : ℕ) : Bool := incompat.testBit 0
/-- `JBD_FEATURE_INCOMPAT_64BIT`. -/
def feature64bit (incompat : ℕ) : Bool := incompat.testBit 1

/-- `EXT3_JOURNAL_SEG_MAX`. -/
def journalSegMax : ℕ := 8

/-! ## Headers and the journal superblock -/

/-- `jbd_header_t`. -/
structure Header where
  magic : ℕ
  blocktype : ℕ
  sequence : ℕ
  deriving DecidableEq, Repr

def header (b : Image) : Header := ⟨getBe b 0 4, getBe b 4 4, getBe b 8 4⟩

def putHeader (b : Image) (blocktype sequence : ℕ) : Image :=
  putBe (putBe (putBe b 0 4 magicNumber) 4 4 blocktype) 8 4 sequence

theorem header_congr {a b : Image} (h : SameBytes 12 a b) : header a = header b := by
  simp only [header]
  rw [getBe_congr fun i _ hi => h i (by omega), getBe_congr fun i _ hi => h i (by omega),
    getBe_congr fun i _ hi => h i (by omega)]

theorem header_putHeader (b : Image) {blocktype sequence : ℕ} (ht : blocktype < 2 ^ 32)
    (hs : sequence < 2 ^ 32) :
    header (putHeader b blocktype sequence) = ⟨magicNumber, blocktype, sequence⟩ := by
  have h0 : getBe (putHeader b blocktype sequence) 0 4 = magicNumber := by
    rw [putHeader, getBe_putBe_of_disjoint _ (by omega), getBe_putBe_of_disjoint _ (by omega),
      getBe_putBe]
    decide
  have h1 : getBe (putHeader b blocktype sequence) 4 4 = blocktype := by
    rw [putHeader, getBe_putBe_of_disjoint _ (by omega), getBe_putBe]
    exact mod_eq_of_lt (by simpa using ht)
  have h2 : getBe (putHeader b blocktype sequence) 8 4 = sequence := by
    rw [putHeader, getBe_putBe]
    exact mod_eq_of_lt (by simpa using hs)
  simp [header, h0, h1, h2]

/-- Fields of `jbd_superblock_t` by offset. -/
def sBlocksize (sb : Image) : ℕ := getBe sb 12 4
def sMaxlen (sb : Image) : ℕ := getBe sb 16 4
def sFirst (sb : Image) : ℕ := getBe sb 20 4
def sSequence (sb : Image) : ℕ := getBe sb 24 4
def sStart (sb : Image) : ℕ := getBe sb 28 4
def sFeatureIncompat (sb : Image) : ℕ := getBe sb 40 4

def setSequence (sb : Image) (v : ℕ) : Image := putBe sb 24 4 v
def setStart (sb : Image) (v : ℕ) : Image := putBe sb 28 4 v

/-! ## Tags -/

/-- `sizeof(jbd_block_tag_t)` or `sizeof(jbd_block_tag_legacy_t)`. -/
def tagSize (is64 : Bool) : ℕ := if is64 then 12 else 8

theorem tagSize_pos (is64 : Bool) : 0 < tagSize is64 := by cases is64 <;> decide

theorem tagSize_cases (is64 : Bool) : tagSize is64 = 12 ∨ tagSize is64 = 8 := by
  cases is64 <;> simp [tagSize]

/-- Tags per descriptor, with room for the UUID of the first one. -/
def tagCapacity (m : Mount) (is64 : Bool) : ℕ :=
  if m.blockSize ≤ 12 + tagSize is64 + 16 then 0
  else (m.blockSize - 12 - 16) / tagSize is64

theorem tagCapacity_eq (m : Mount) (is64 : Bool) :
    tagCapacity m is64 = (m.blockSize - 28) / tagSize is64 := by
  have h := m.le_blockSize
  have hs := tagSize_cases is64
  rw [tagCapacity, if_neg (by omega), Nat.sub_sub]

theorem tagCapacity_pos (m : Mount) (is64 : Bool) : 0 < tagCapacity m is64 := by
  have h := m.le_blockSize
  have hs := tagSize_cases is64
  rw [tagCapacity_eq]
  exact div_pos (by omega) (tagSize_pos is64)

theorem tagCapacity_mul_le (m : Mount) (is64 : Bool) :
    28 + tagCapacity m is64 * tagSize is64 ≤ m.blockSize := by
  have h := m.le_blockSize
  have hm := div_mul_le_self (m.blockSize - 28) (tagSize is64)
  rw [tagCapacity_eq]
  omega

/-- Both tag layouts keep the flags at offset 6. -/
def tagFlags (desc : Image) (off : ℕ) : ℕ := getBe desc (off + 6) 2

def tagBlock (is64 : Bool) (desc : Image) (off : ℕ) : ℕ :=
  if is64 then getBe desc (off + 8) 4 * 2 ^ 32 + getBe desc off 4 else getBe desc off 4

/-! ## Log positions of a write-set

Descriptors are interleaved before the payloads they describe:
`[desc0][payloads0][desc1][payloads1]…` from log block 1. -/

/-- Log position of the descriptor that carries write-set entry `index`. -/
def descPos (index tagcap : ℕ) : ℕ := 1 + (index / tagcap) * (tagcap + 1)

/-- Log position of the payload copy of write-set entry `index`. -/
def payloadPos (index tagcap : ℕ) : ℕ := 2 + index + index / tagcap

/-- The payload of entry `index` follows its descriptor at its place in the group. -/
theorem payloadPos_eq (index tagcap : ℕ) :
    payloadPos index tagcap = descPos index tagcap + 1 + index % tagcap := by
  have h := div_add_mod index tagcap
  have hm : index / tagcap * (tagcap + 1) = tagcap * (index / tagcap) + index / tagcap := by ring
  rw [payloadPos, descPos]
  omega

theorem payloadPos_strictMono (tagcap : ℕ) : StrictMono fun i => payloadPos i tagcap := by
  intro i j hij
  have h : i / tagcap ≤ j / tagcap := Nat.div_le_div_right hij.le
  simp only [payloadPos]
  omega

/-! ## Counting the tags of a descriptor -/

/-- The body of the tag loop, from a given offset and with the counts so far.  `fuel` is
what is left of the tag capacity, the loop's own bound. -/
def tagCountFrom (bs : ℕ) (is64 includeUuids : Bool) (desc : Image) : ℕ → ℕ → ℕ → ℕ → Option (ℕ × ℕ)
  | 0, _, _, _ => none
  | fuel + 1, offset, count, payload =>
    if offset + tagSize is64 ≤ bs then
      let flags := tagFlags desc offset
      let payload' := if flagDeleted flags then payload else payload + 1
      let offset' := offset + tagSize is64 + if includeUuids && !flagSameUuid flags then 16 else 0
      if bs < offset' then none
      else if flagLastTag flags then some (count + 1, payload')
      else tagCountFrom bs is64 includeUuids desc fuel offset' (count + 1) payload'
    else none

/-- `ext3_descriptor_tag_count`: the tags of a descriptor and how many have a payload. -/
def descriptorTagCount (m : Mount) (is64 includeUuids : Bool) (desc : Image) : Option (ℕ × ℕ) :=
  tagCountFrom m.blockSize is64 includeUuids desc (tagCapacity m is64) 12 0 0

/-- Read a log block through the journal inode's map. -/
def readLog (m : Mount) (d : Disk) (pos : ℕ) : Option Image :=
  let phys := m.journalMap pos
  if phys = 0 ∨ m.blocksCount ≤ phys then none else some (d phys)

/-- `ext3_journal_phys`: the device block of a log position, 0 when there is none.  A
journal length of 0 is taken as unknown. -/
def journalPhys (m : Mount) (journalBlocks pos : ℕ) : ℕ :=
  if journalBlocks ≠ 0 ∧ journalBlocks ≤ pos then 0
  else
    let phys := m.journalMap pos
    if phys = 0 ∨ m.blocksCount ≤ phys then 0 else phys

theorem journalPhys_ne_zero {m : Mount} {journalBlocks pos : ℕ}
    (h : journalPhys m journalBlocks pos ≠ 0) :
    journalPhys m journalBlocks pos = m.journalMap pos ∧ m.journalMap pos ≠ 0 ∧
      m.journalMap pos < m.blocksCount ∧ (journalBlocks ≠ 0 → pos < journalBlocks) := by
  simp only [journalPhys] at h ⊢
  split at h
  · exact absurd rfl h
  split at h
  · exact absurd rfl h
  rename_i hpos hphys
  rw [if_neg hpos, if_neg hphys]
  refine ⟨rfl, h, by omega, fun hj => by omega⟩

/-- A header of the given transaction that may follow a descriptor's payloads. -/
def isTxnHeader (h : Header) (sequence : ℕ) : Bool :=
  h.magic == magicNumber && h.sequence == sequence &&
    (h.blocktype == descriptorBlock || h.blocktype == revokeBlock || h.blocktype == commitBlock)

/-- One candidate reading of a descriptor: accepted when its payloads end before the log
does and the next block continues the transaction. -/
def acceptCount (rd : ℕ → Option Image) (journalBlocks logPos sequence : ℕ)
    (count : Option (ℕ × ℕ)) : Option (ℕ × ℕ) :=
  match count with
  | none => none
  | some (tags, payload) =>
    if journalBlocks - logPos < payload + 1 then none
    else if journalBlocks ≤ logPos + 1 + payload then none
    else match rd (logPos + 1 + payload) with
      | none => none
      | some next => if isTxnHeader (header next) sequence then some (tags, payload) else none

/-- `ext3_descriptor_tag_count_for_log`: tags, payloads, and whether UUIDs are present. -/
def descriptorTagCountForLog (m : Mount) (is64 : Bool) (rd : ℕ → Option Image)
    (journalBlocks logPos sequence : ℕ) (desc : Image) : Option (ℕ × ℕ × Bool) :=
  match acceptCount rd journalBlocks logPos sequence (descriptorTagCount m is64 true desc) with
  | some (tags, payload) => some (tags, payload, true)
  | none =>
    match acceptCount rd journalBlocks logPos sequence (descriptorTagCount m is64 false desc) with
    | some (tags, payload) => some (tags, payload, false)
    | none => none

end AvoryOS.Ext3
