import AvoryOS.Ext3.Format
import AvoryOS.Lib.Records
import AvoryOS.Lib.Runs

/-!
# Nodes of the extent tree

A node is a header and an array of twelve-byte entries: extents in a leaf, indexes in an inner
node.  The root lives in the inode; every other node fills a block.  A node is written over the
buffer it was read into, so what lies behind its last entry stays.

The length field of an extent also says whether its blocks were written: up to 32768 it is the
number of written blocks, above that the number of unwritten ones plus 32768.  The code takes
the low fifteen bits for the length, so an extent of exactly 32768 blocks is one of its own
kind here.
-/

namespace AvoryOS.Ext4

open Nat Bytes Ext3 Runs

/-- `EXT4_EXT_MAGIC`. -/
def extMagic : ℕ := 0xF30A

/-- `EXT4_MAX_PHYS_BLOCK`. -/
def maxPhysBlock : ℕ := 2 ^ 48 - 1

/-- `ext4_extent_t`. -/
structure Extent where
  /-- `ee_block`. -/
  block : ℕ
  /-- `ee_len`. -/
  len : ℕ
  /-- `ext4_extent_get_pblock`. -/
  start : ℕ
  deriving DecidableEq, Repr

/-- `ext4_extent_idx_t`. -/
structure Index where
  /-- `ei_block`. -/
  block : ℕ
  /-- `ext4_idx_get_pblock`. -/
  leaf : ℕ
  deriving DecidableEq, Repr

/-- What the length field says about the blocks. -/
inductive Kind
  | written
  | longest
  | unwritten
  deriving DecidableEq, Repr

namespace Extent

/-- The length as the code takes it: `ee_len & 0x7FFF`. -/
def masked (e : Extent) : ℕ := e.len % 0x8000

def count (e : Extent) : ℕ := if e.len ≤ 0x8000 then e.len else e.len - 0x8000

def kind (e : Extent) : Kind :=
  if e.len < 0x8000 then .written else if e.len = 0x8000 then .longest else .unwritten

/-- What the format says an extent maps. -/
def run (e : Extent) : Run Kind := ⟨e.block, e.count, e.start, e.kind⟩

@[simp] theorem run_first (e : Extent) : e.run.first = e.block := rfl

@[simp] theorem run_len (e : Extent) : e.run.len = e.count := rfl

@[simp] theorem run_target (e : Extent) : e.run.target = e.start := rfl

@[simp] theorem run_tag (e : Extent) : e.run.tag = e.kind := rfl

theorem run_stop (e : Extent) : e.run.stop = e.block + e.count := rfl

end Extent

/-- A node; `eh_depth` is 0 in a leaf, and `eh_entries` is the length of the array. -/
inductive Node
  | leaf (max generation : ℕ) (exts : List Extent)
  | index (max depth generation : ℕ) (idxs : List Index)
  deriving DecidableEq, Repr

namespace Node

/-- `eh_depth`. -/
def depth : Node → ℕ
  | .leaf _ _ _ => 0
  | .index _ depth _ _ => depth

/-- `eh_max`. -/
def max : Node → ℕ
  | .leaf max _ _ => max
  | .index max _ _ _ => max

/-- `eh_generation`. -/
def generation : Node → ℕ
  | .leaf _ generation _ => generation
  | .index _ _ generation _ => generation

/-- `eh_entries`. -/
def entries : Node → ℕ
  | .leaf _ _ exts => exts.length
  | .index _ _ _ idxs => idxs.length

/-- `ext4_extent_first_logical`. -/
def firstLogical : Node → ℕ
  | .leaf _ _ exts => (exts.head?.map Extent.block).getD 0
  | .index _ _ _ idxs => (idxs.head?.map Index.block).getD 0

/-- The same entries under another `eh_max`. -/
def withMax (max : ℕ) : Node → Node
  | .leaf _ generation exts => .leaf max generation exts
  | .index _ depth generation idxs => .index max depth generation idxs

end Node

/-- `ext4_extent_block_max`. -/
def blockMax (m : Mount) : ℕ := (m.blockSize - 12) / 12

/-! ## Entries -/

def putExtent (b : Image) (o : ℕ) (e : Extent) : Image :=
  putLe (putLe (putLe (putLe b o 4 e.block) (o + 4) 2 e.len) (o + 6) 2 (e.start / 2 ^ 32)) (o + 8) 4
    e.start

def getExtent (b : Image) (o : ℕ) : Extent :=
  ⟨getLe b o 4, getLe b (o + 4) 2, getLe b (o + 6) 2 * 2 ^ 32 + getLe b (o + 8) 4⟩

def putIndex (b : Image) (o : ℕ) (i : Index) : Image :=
  putLe (putLe (putLe (putLe b o 4 i.block) (o + 4) 4 i.leaf) (o + 8) 2 (i.leaf / 2 ^ 32))
    (o + 10) 2 0

def getIndex (b : Image) (o : ℕ) : Index :=
  ⟨getLe b o 4, getLe b (o + 8) 2 * 2 ^ 32 + getLe b (o + 4) 4⟩

def ExtentFits (e : Extent) : Prop := e.block < 2 ^ 32 ∧ e.len < 2 ^ 16 ∧ e.start < 2 ^ 48

def IndexFits (i : Index) : Prop := i.block < 2 ^ 32 ∧ i.leaf < 2 ^ 48

theorem high_low (x : ℕ) (h : x < 2 ^ 48) : x / 2 ^ 32 % 256 ^ 2 * 2 ^ 32 + x % 256 ^ 4 = x := by
  omega

theorem getExtent_putExtent {e : Extent} (h : ExtentFits e) (b : Image) (o : ℕ) :
    getExtent (putExtent b o e) o = e := by
  obtain ⟨hblock, hlen, hstart⟩ := h
  have hword := high_low e.start hstart
  simp (disch := omega) only [getExtent, putExtent, getLe_putLe, getLe_putLe_of_disjoint]
  rw [hword, mod_eq_of_lt (by omega), mod_eq_of_lt (by omega)]

theorem getIndex_putIndex {i : Index} (h : IndexFits i) (b : Image) (o : ℕ) :
    getIndex (putIndex b o i) o = i := by
  obtain ⟨hblock, hleaf⟩ := h
  have hword := high_low i.leaf hleaf
  simp (disch := omega) only [getIndex, putIndex, getLe_putLe, getLe_putLe_of_disjoint]
  rw [hword, mod_eq_of_lt (by omega)]

def extentCodec : Codec Extent where
  size := 12
  put := putExtent
  get := getExtent
  Valid := ExtentFits
  get_put := fun b o _ h => getExtent_putExtent h b o
  put_other := by
    intro b o e i hi
    simp (disch := omega) only [putExtent, putLe_other]
  get_congr := by
    intro a b o h
    simp only [getExtent]
    repeat rw [getLe_congr fun i h1 h2 => h i (by omega) (by omega)]

def indexCodec : Codec Index where
  size := 12
  put := putIndex
  get := getIndex
  Valid := IndexFits
  get_put := fun b o _ h => getIndex_putIndex h b o
  put_other := by
    intro b o e i hi
    simp (disch := omega) only [putIndex, putLe_other]
  get_congr := by
    intro a b o h
    simp only [getIndex]
    repeat rw [getLe_congr fun i h1 h2 => h i (by omega) (by omega)]

/-! ## A node in a block -/

def putHeader (b : Image) (entries max depth generation : ℕ) : Image :=
  putLe (putLe (putLe (putLe (putLe b 0 2 extMagic) 2 2 entries) 4 2 max) 6 2 depth) 8 4 generation

def encode (b : Image) : Node → Image
  | .leaf max generation exts =>
    extentCodec.putAll (putHeader b exts.length max 0 generation) 12 exts
  | .index max depth generation idxs =>
    indexCodec.putAll (putHeader b idxs.length max depth generation) 12 idxs

/-- The node in a buffer; none when the magic number is missing. -/
def decode (b : Image) : Option Node :=
  if getLe b 0 2 = extMagic then
    if getLe b 6 2 = 0 then
      some (.leaf (getLe b 4 2) (getLe b 8 4) (extentCodec.getAll b 12 (getLe b 2 2)))
    else
      some (.index (getLe b 4 2) (getLe b 6 2) (getLe b 8 4) (indexCodec.getAll b 12 (getLe b 2 2)))
  else none

def NodeFits : Node → Prop
  | .leaf max generation exts =>
    exts.length < 2 ^ 16 ∧ max < 2 ^ 16 ∧ generation < 2 ^ 32 ∧ ∀ e ∈ exts, ExtentFits e
  | .index max depth generation idxs =>
    idxs.length < 2 ^ 16 ∧ max < 2 ^ 16 ∧ 0 < depth ∧ depth < 2 ^ 16 ∧ generation < 2 ^ 32 ∧
      ∀ i ∈ idxs, IndexFits i

variable {β : Type*}

/-- The header survives the entries, which start behind it. -/
theorem getLe_header (c : Codec β) (b : Image) (xs : List β) {o n : ℕ}
    (h : o + n ≤ 12) : getLe (c.putAll b 12 xs) o n = getLe b o n :=
  getLe_congr fun _ _ h2 => c.putAll_other (.inl (by omega))

theorem getAll_entries (c : Codec β) (b : Image) {xs : List β} {n : ℕ}
    (hn : n = xs.length) (h : ∀ x ∈ xs, c.Valid x) : c.getAll (c.putAll b 12 xs) 12 n = xs := by
  rw [hn, c.getAll_putAll h]

section Header

variable (b : Image) (entries max depth gen : ℕ)

theorem magic_putHeader : getLe (putHeader b entries max depth gen) 0 2 = extMagic := by
  simp (disch := omega) only [putHeader, getLe_putLe_of_disjoint, getLe_putLe]
  rfl

theorem entries_putHeader (h : entries < 2 ^ 16) :
    getLe (putHeader b entries max depth gen) 2 2 = entries := by
  simp (disch := omega) only [putHeader, getLe_putLe_of_disjoint, getLe_putLe]
  exact mod_eq_of_lt h

theorem max_putHeader (h : max < 2 ^ 16) :
    getLe (putHeader b entries max depth gen) 4 2 = max := by
  simp (disch := omega) only [putHeader, getLe_putLe_of_disjoint, getLe_putLe]
  exact mod_eq_of_lt h

theorem depth_putHeader (h : depth < 2 ^ 16) :
    getLe (putHeader b entries max depth gen) 6 2 = depth := by
  simp (disch := omega) only [putHeader, getLe_putLe_of_disjoint, getLe_putLe]
  exact mod_eq_of_lt h

theorem generation_putHeader (h : gen < 2 ^ 32) :
    getLe (putHeader b entries max depth gen) 8 4 = gen := by
  simp (disch := omega) only [putHeader, getLe_putLe]
  exact mod_eq_of_lt h

end Header

variable {node : Node}

/-- **The round trip of a node.** -/
theorem decode_encode (h : NodeFits node) (b : Image) : decode (encode b node) = some node := by
  cases node with
  | leaf max gen exts =>
    obtain ⟨hlen, hmax, hgen, hexts⟩ := h
    have hmagic := getLe_header extentCodec (putHeader b exts.length max 0 gen) exts
      (show 0 + 2 ≤ 12 by omega)
    rw [magic_putHeader] at hmagic
    rw [decode, encode, if_pos hmagic]
    simp (disch := omega) only [getLe_header, depth_putHeader, if_true, max_putHeader,
      generation_putHeader, entries_putHeader]
    rw [getAll_entries extentCodec _ rfl hexts]
  | index max depth gen idxs =>
    obtain ⟨hlen, hmax, hpos, hdepth, hgen, hidxs⟩ := h
    have hmagic := getLe_header indexCodec (putHeader b idxs.length max depth gen) idxs
      (show 0 + 2 ≤ 12 by omega)
    rw [magic_putHeader] at hmagic
    rw [decode, encode, if_pos hmagic]
    simp (disch := omega) only [getLe_header, depth_putHeader, max_putHeader,
      generation_putHeader, entries_putHeader]
    rw [if_neg (by omega), getAll_entries indexCodec _ rfl hidxs]

theorem getAll_valid (c : Codec β) (b : Image) (hget : ∀ o, c.Valid (c.get b o)) (n : ℕ) :
    ∀ o, (c.getAll b o n).length = n ∧ ∀ x ∈ c.getAll b o n, c.Valid x := by
  induction n with
  | zero => intro o; exact ⟨rfl, by simp [Codec.getAll]⟩
  | succ n ih =>
    intro o
    obtain ⟨hlen, hall⟩ := ih (o + c.size)
    refine ⟨by rw [Codec.getAll, List.length_cons, hlen], ?_⟩
    intro x hx
    rcases List.mem_cons.mp hx with rfl | hx
    · exact hget o
    · exact hall x hx

theorem decode_fits {b : Image} (h : decode b = some node) : NodeFits node := by
  have hentries : getLe b 2 2 < 2 ^ 16 := getLe_lt b 2 2
  have hmax : getLe b 4 2 < 2 ^ 16 := getLe_lt b 4 2
  have hdepth : getLe b 6 2 < 2 ^ 16 := getLe_lt b 6 2
  have hgen : getLe b 8 4 < 2 ^ 32 := getLe_lt b 8 4
  rw [decode] at h
  split at h
  swap
  · simp at h
  split at h
  · cases h
    have hvalid := getAll_valid extentCodec b (fun o => ⟨getLe_lt b o 4, getLe_lt b (o + 4) 2, by
      have h1 : getLe b (o + 6) 2 < 2 ^ 16 := getLe_lt b (o + 6) 2
      have h2 : getLe b (o + 8) 4 < 2 ^ 32 := getLe_lt b (o + 8) 4
      change getLe b (o + 6) 2 * 2 ^ 32 + getLe b (o + 8) 4 < 2 ^ 48
      omega⟩) (getLe b 2 2) 12
    exact ⟨by rw [hvalid.1]; exact hentries, hmax, hgen, hvalid.2⟩
  cases h
  have hvalid := getAll_valid indexCodec b (fun o => ⟨getLe_lt b o 4, by
    have h1 : getLe b (o + 8) 2 < 2 ^ 16 := getLe_lt b (o + 8) 2
    have h2 : getLe b (o + 4) 4 < 2 ^ 32 := getLe_lt b (o + 4) 4
    change getLe b (o + 8) 2 * 2 ^ 32 + getLe b (o + 4) 4 < 2 ^ 48
    omega⟩) (getLe b 2 2) 12
  exact ⟨by rw [hvalid.1]; exact hentries, hmax, by omega, hdepth, hgen, hvalid.2⟩

/-- `ext2_read_block` refuses blocks outside the volume, and block 0 reads as zeros, which is no
node. -/
def Readable (m : Mount) (b : ℕ) : Prop := b ≠ 0 ∧ b < m.blocksCount

instance (m : Mount) (b : ℕ) : Decidable (Readable m b) := inferInstanceAs (Decidable (_ ∧ _))

def readNode (m : Mount) (d : ℕ → Image) (b : ℕ) : Option Node :=
  if Readable m b then decode (d b) else none

variable {d : ℕ → Image} {b : ℕ}

theorem readNode_congr (m : Mount) {d' : ℕ → Image} (h : d' b = d b) :
    readNode m d' b = readNode m d b := by
  rw [readNode, readNode, h]

theorem readNode_encode {m : Mount} (hb : Readable m b)
    (h : NodeFits node) {old : Image} (hd : d b = encode old node) :
    readNode m d b = some node := by
  rw [readNode, if_pos hb, hd, decode_encode h]

theorem readNode_eq_some {m : Mount}
    (h : readNode m d b = some node) : Readable m b ∧ decode (d b) = some node ∧ NodeFits node := by
  rw [readNode] at h
  split at h
  · rename_i hb
    exact ⟨hb, h, decode_fits h⟩
  · simp at h

end AvoryOS.Ext4
