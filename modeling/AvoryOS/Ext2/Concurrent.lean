import AvoryOS.Ext2.Block
import AvoryOS.Lib.Transition

/-!
# The block cache under concurrent readers

A reader probes the cache, reads the device with the cache unlocked, and then publishes what it
read.  A writer publishes its images, writes the device, and completes; in between, readers run.
Each slot counts the writes that began or ended on it, and those still in flight, and a reader
whose slot changed meanwhile starts again.

The steps here are the sections under the cache lock and the device transfers.  Each block has a
log of the images written to it, and the version of its last completed write; neither is part of
the code.  `not_stale` says that no reader returns, and no slot keeps, an image of an earlier
version.  The block 0 is apart: it can be written, but reads of it are those of a hole.

Images staged in the journal are found before the cache is probed, and are not part of the model.
-/

namespace AvoryOS.Ext2.Concurrent

open Bytes Ext3 Transition Function List

/-! ## The system -/

/-- A slot of the cache, with the counters a reader checks. -/
structure Slot where
  num : ℕ
  data : Option Image
  writeSeq : ℕ
  writesInflight : ℕ

/-- Where a call of `ext2_read_block` is.  `floor` is the version of the last write of the block
that was complete when the call began. -/
inductive Reader
  | probe (b floor : ℕ)
  | device (b floor writeSeq : ℕ)
  | publish (b floor writeSeq : ℕ) (buffer : Image)
  /-- The call is over; it has no result on an error. -/
  | returned (b floor : ℕ) (result : Option Image)

structure Transfer where
  block : ℕ
  image : Image
  /-- The place of the image in the log of the block. -/
  version : ℕ
  written : Bool

structure State where
  cache : ℕ → Slot
  /-- `cache_shrink_cursor`. -/
  cursor : ℕ
  device : ℕ → Image
  readers : ℕ → Option Reader
  /-- The write in progress, if there is one. -/
  transfers : List Transfer
  /-- The write in progress is one transfer, with one result. -/
  oneResult : Bool
  /-- The images written to each block, the first of them at the start. -/
  log : ℕ → List Image
  /-- The version of the last completed write. -/
  done : ℕ → ℕ

inductive Request
  /-- `ext2_write_block`. -/
  | block (b : ℕ) (image : Image)
  /-- `ext2_write_blocks`. -/
  | blocks (first : ℕ) (images : List Image)
  /-- `ext2_write_blocks_batch`. -/
  | batch (entries : List (ℕ × Image))

/-- The sectors of `count` blocks from `b` have 64-bit addresses. -/
def lbaFits (m : Mount) (count b : ℕ) : Bool :=
  b ≤ (2 ^ 64 - 1 - (count * (m.blockSize / 512) - 1)) / (m.blockSize / 512)

/-- The blocks a request writes, unless it is refused. -/
def Request.entries (m : Mount) : Request → Option (List (ℕ × Image))
  | .block b image =>
    if m.readOnly || m.blocksCount ≤ b || !lbaFits m 1 b then none else some [(b, image)]
  | .blocks first images =>
    if m.readOnly || first = 0 || images.isEmpty || 32 < images.length ||
        m.blocksCount ≤ first || m.blocksCount - first < images.length ||
        !lbaFits m images.length first then none
    else some (images.mapIdx fun i image => (first + i, image))
  | .batch entries =>
    if m.readOnly || entries.isEmpty || 32 < entries.length ||
        entries.any fun e => m.blocksCount ≤ e.1 || !lbaFits m 1 e.1 then none
    else some entries

/-- The members of a batch have results of their own. -/
def Request.oneResult : Request → Bool
  | .block .. => true
  | .blocks .. => true
  | .batch _ => false

inductive Event
  /-- The thread `r` calls `ext2_read_block`. -/
  | read (r b : ℕ)
  | probe (r : ℕ)
  | readSectors (r : ℕ) (err : Bool)
  | publish (r : ℕ)
  /-- `ext2_cache_prepare` installs storage with some content. -/
  | prepare (i : ℕ) (content : Image)
  /-- The section of `ext2_buffer_cache_shrink` on this mount, after `freed` buffers. -/
  | shrink (maxBuffers freed : ℕ)
  | write (q : Request)
  /-- The device has the `i`-th block of the write. -/
  | writeSectors (i : ℕ)
  /-- The last section of a write, with what failed. -/
  | finish (failed : List Bool)

def State.slot (s : State) (b : ℕ) : Slot := s.cache (b % cacheSize)

def State.setSlot (s : State) (i : ℕ) (c : Slot) : State :=
  { s with cache := update s.cache i c }

def State.setReader (s : State) (r : ℕ) (rd : Reader) : State :=
  { s with readers := update s.readers r (some rd) }

def State.hit (s : State) (b : ℕ) : Option Image :=
  if (s.slot b).num = b then (s.slot b).data else none

/-- The slot has storage, so an image is put there. -/
def Slot.fill (c : Slot) (b : ℕ) (image : Image) : Slot :=
  match c.data with
  | none => c
  | some _ => { c with num := b, data := some image }

/-- What `ext2_read_block` does before it probes the cache. -/
def beginRead (m : Mount) (s : State) (r b : ℕ) : State :=
  -- block 0 is the sentinel of a hole
  if b = 0 then s.setReader r (.returned b (s.done b) (some zero))
  else if m.blocksCount ≤ b || !lbaFits m 1 b then s.setReader r (.returned b (s.done b) none)
  else s.setReader r (.probe b (s.done b))

/-- The first section of `ext2_read_block`. -/
def probe (s : State) (r b floor : ℕ) : State :=
  match s.hit b with
  | some image => s.setReader r (.returned b floor (some image))
  | none =>
    if (s.slot b).writesInflight ≠ 0 then s
    else s.setReader r (.device b floor (s.slot b).writeSeq)

/-- The last section of `ext2_read_block`. -/
def publish (s : State) (r b floor writeSeq : ℕ) (buffer : Image) : State :=
  match s.hit b with
  | some image => s.setReader r (.returned b floor (some image))
  | none =>
    if (s.slot b).writeSeq ≠ writeSeq ∨ (s.slot b).writesInflight ≠ 0 then
      s.setReader r (.probe b floor)
    else
      (s.setSlot (b % cacheSize) ((s.slot b).fill b buffer)).setReader r
        (.returned b floor (some buffer))

/-- Storage for a slot that has none. -/
def prepare (s : State) (i : ℕ) (content : Image) : State :=
  match (s.cache i).data with
  | some _ => s
  | none => s.setSlot i { s.cache i with data := some content }

/-- One round of the loop of `ext2_buffer_cache_shrink`; the number counts the freed buffers. -/
def shrinkOne (maxBuffers freed : ℕ) (p : State × ℕ) (i : ℕ) : State × ℕ :=
  if freed + p.2 < maxBuffers ∧ p.2 < 32 ∧ (p.1.cache i).data.isSome ∧
      (p.1.cache i).writesInflight = 0 then
    (p.1.setSlot i
        { p.1.cache i with num := 0, data := none, writeSeq := (p.1.cache i).writeSeq + 1 },
      p.2 + 1)
  else p

/-- `ext2_buffer_cache_shrink` on one mount. -/
def shrink (s : State) (maxBuffers freed : ℕ) : State :=
  let r := ((List.range cacheSize).map fun k => (s.cursor + k) % cacheSize).foldl
    (shrinkOne maxBuffers freed) (s, 0)
  { r.1 with cursor := (s.cursor + maxBuffers) % cacheSize }

/-- One block in the first section of a write. -/
def publishOne (s : State) (e : ℕ × Image) : State :=
  { s.setSlot (e.1 % cacheSize)
      ({ s.slot e.1 with
        writeSeq := (s.slot e.1).writeSeq + 1
        writesInflight := (s.slot e.1).writesInflight + 1 }.fill e.1 e.2) with
    log := update s.log e.1 (s.log e.1 ++ [e.2])
    transfers := s.transfers ++ [⟨e.1, e.2, (s.log e.1).length, false⟩] }

/-- The slot of a block at the end of a write. -/
def Slot.complete (c : Slot) (b : ℕ) (failed : Bool) : Slot :=
  { c with
    num := if failed ∧ c.num = b then 0 else c.num
    writeSeq := c.writeSeq + 1
    writesInflight := c.writesInflight - 1 }

/-- One block in the last section of a write. -/
def finishOne (s : State) (t : Transfer) (failed : Bool) : State :=
  { s.setSlot (t.block % cacheSize) ((s.slot t.block).complete t.block failed) with
    done := if failed then s.done else update s.done t.block t.version }

def finish (s : State) : List Transfer → List Bool → State
  | t :: ts, f :: fs => finish (finishOne { s with transfers := ts } t f) ts fs
  | _, _ => s

/-- Whether the write in progress can end with these results: what succeeded is on the device. -/
def canFinish (s : State) (failed : List Bool) : Bool :=
  !s.transfers.isEmpty && failed.length == s.transfers.length &&
    (s.transfers.zip failed).all (fun p => p.2 || p.1.written) &&
    (!s.oneResult || failed.all (· == true) || failed.all (· == false))

/-- The `i`-th block of the write in progress reaches the device. -/
def writeSectors (s : State) (i : ℕ) : Option State :=
  match s.transfers[i]? with
  | none => none
  | some t => some
      { s with
        device := update s.device t.block t.image
        transfers := s.transfers.set i { t with written := true } }

def step (m : Mount) (s : State) : Event → Option State
  | .read r b =>
    match s.readers r with
    | none => some (beginRead m s r b)
    | some (.returned ..) => some (beginRead m s r b)
    | _ => none
  | .probe r =>
    match s.readers r with
    | some (.probe b floor) => some (probe s r b floor)
    | _ => none
  | .readSectors r err =>
    match s.readers r with
    | some (.device b floor writeSeq) => some <|
        if err then s.setReader r (.returned b floor none)
        else s.setReader r (.publish b floor writeSeq (s.device b))
    | _ => none
  | .publish r =>
    match s.readers r with
    | some (.publish b floor writeSeq buffer) => some (publish s r b floor writeSeq buffer)
    | _ => none
  | .prepare i content => some (prepare s i content)
  | .shrink maxBuffers freed => some (shrink s maxBuffers freed)
  | .write q =>
    -- one writer at a time: the journal's owner
    match s.transfers, q.entries m with
    | [], some es => some (es.foldl publishOne { s with oneResult := q.oneResult })
    | _, _ => none
  | .writeSectors i => writeSectors s i
  | .finish failed => if canFinish s failed then some (finish s s.transfers failed) else none

/-- A mounted volume before its first access. -/
structure Initial (s : State) : Prop where
  cache : ∀ i, (s.cache i).num = 0 ∧ (s.cache i).data = none ∧ (s.cache i).writesInflight = 0
  readers : ∀ r, s.readers r = none
  transfers : s.transfers = []
  log : ∀ b, s.log b = [s.device b]
  done : ∀ b, s.done b = 0

/-! ## Versions -/

/-- The image was written to the block by the write `k` or a later one. -/
def Fresh (s : State) (b k : ℕ) (image : Image) : Prop :=
  ∃ v, k ≤ v ∧ (s.log b)[v]? = some image

variable {image : Image}

theorem getElem?_of_prefix {l l' : List Image} {v : ℕ} (h : l <+: l')
    (hx : l[v]? = some image) : l'[v]? = some image := by
  obtain ⟨t, rfl⟩ := h
  rw [getElem?_append_left (List.getElem?_eq_some_iff.mp hx).1, hx]

variable {s s' : State} {b : ℕ}

theorem Fresh.mono {k k' : ℕ} (h : Fresh s b k image)
    (hlog : s.log b <+: s'.log b) (hk : k' ≤ k) : Fresh s' b k' image := by
  obtain ⟨v, hv, hx⟩ := h
  exact ⟨v, hk.trans hv, getElem?_of_prefix hlog hx⟩

/-- What a step may do to the versions: logs and counters grow, and no write completes on a slot
whose counter stays. -/
structure Later (s s' : State) : Prop where
  log : ∀ b, s.log b <+: s'.log b
  done : ∀ b, s.done b ≤ s'.done b
  seq : ∀ b, (s.slot b).writeSeq ≤ (s'.slot b).writeSeq
  same : ∀ b, (s'.slot b).writeSeq = (s.slot b).writeSeq → s'.done b = s.done b

def ReaderOk (s : State) : Reader → Prop
  | .probe b floor => b ≠ 0 ∧ floor ≤ s.done b
  | .device b floor q => b ≠ 0 ∧ floor ≤ s.done b ∧ q ≤ (s.slot b).writeSeq
  | .publish b floor q buffer =>
    b ≠ 0 ∧ floor ≤ s.done b ∧ q ≤ (s.slot b).writeSeq ∧
      ((s.slot b).writeSeq = q → Fresh s b (s.done b) buffer)
  | .returned b floor result => b ≠ 0 → ∀ image, result = some image → Fresh s b floor image

theorem ReaderOk.later {rd : Reader} (h : ReaderOk s rd) (hl : Later s s') : ReaderOk s' rd := by
  cases rd with
  | probe b floor => exact ⟨h.1, h.2.trans (hl.done b)⟩
  | device b floor q => exact ⟨h.1, h.2.1.trans (hl.done b), h.2.2.trans (hl.seq b)⟩
  | publish b floor q buffer =>
    obtain ⟨hb, hf, hq, hx⟩ := h
    refine ⟨hb, hf.trans (hl.done b), hq.trans (hl.seq b), fun e => ?_⟩
    have hs : (s'.slot b).writeSeq = (s.slot b).writeSeq := by
      have := hl.seq b
      omega
    exact (hx (hs ▸ e)).mono (hl.log b) (hl.same b hs).le
  | returned b floor result =>
    intro hb image hr
    exact (h hb image hr).mono (hl.log b) le_rfl

/-! ## The invariant -/

/-- The image cached for a block is recent, and is the one in flight if there is one. -/
def Cached (s : State) (b : ℕ) (image : Image) : Prop :=
  Fresh s b (s.done b) image ∧ ∀ t ∈ s.transfers, t.block = b → image = t.image

/-- What holds of a block of the write in progress. -/
def TransferOk (s : State) (t : Transfer) : Prop :=
  s.done t.block ≤ t.version ∧ (s.log t.block)[t.version]? = some t.image ∧
    (t.written = true → s.device t.block = t.image)

structure Inv (s : State) : Prop where
  device : ∀ b, Fresh s b (s.done b) (s.device b)
  empty : ∀ i, (s.cache i).data = none → (s.cache i).num = 0
  cached : ∀ b image, b ≠ 0 → s.hit b = some image → Cached s b image
  inflight : ∀ i, (s.cache i).writesInflight = s.transfers.countP fun t => t.block % cacheSize == i
  transfers : ∀ t ∈ s.transfers, TransferOk s t
  nodup : (s.transfers.map Transfer.block).Nodup
  readers : ∀ r rd, s.readers r = some rd → ReaderOk s rd

/-- A write names each block once, as `ext2_write_blocks_batch` asks of its callers. -/
def Careful (m : Mount) (_ : State) : Event → Prop
  | .write q => (((q.entries m).getD []).map Prod.fst).Nodup
  | _ => True

instance (m : Mount) (s : State) : ∀ e, Decidable (Careful m s e)
  | .write q => inferInstanceAs (Decidable (((q.entries m).getD []).map Prod.fst).Nodup)
  | .read .. | .probe _ | .readSectors .. | .publish _ | .prepare .. | .shrink ..
  | .writeSectors _ | .finish _ => isTrue trivial

/-! ## Slots -/

section Slots

variable {i b' : ℕ} {c : Slot} {x : Image}

theorem slot_setSlot : (s.setSlot i c).slot b = if b % cacheSize = i then c else s.slot b := by
  simp [State.setSlot, State.slot, update_apply]

theorem hit_eq_some : s.hit b = some x ↔ (s.slot b).num = b ∧ (s.slot b).data = some x := by
  unfold State.hit
  split <;> simp [*]

/-- A cached block is that of the replaced slot, or was cached before. -/
theorem hit_setSlot (h : (s.setSlot i c).hit b = some x) :
    (b % cacheSize = i ∧ c.num = b ∧ c.data = some x) ∨ (b % cacheSize ≠ i ∧ s.hit b = some x) := by
  obtain ⟨hn, hd⟩ := hit_eq_some.mp h
  rw [slot_setSlot] at hn hd
  split at hn
  · next e => exact .inl ⟨e, hn, by rwa [if_pos e] at hd⟩
  · next e => exact .inr ⟨e, hit_eq_some.mpr ⟨hn, by rwa [if_neg e] at hd⟩⟩

theorem empty_setSlot (h : ∀ j, (s.cache j).data = none → (s.cache j).num = 0)
    (hc : c.data = none → c.num = 0) (j : ℕ) (hj : ((s.setSlot i c).cache j).data = none) :
    ((s.setSlot i c).cache j).num = 0 := by
  simp only [State.setSlot, update_apply] at hj ⊢
  split at hj
  · next e => simpa [e] using hc hj
  · next e => simpa [e] using h j hj

theorem writeSeq_setSlot (h : (s.cache i).writeSeq ≤ c.writeSeq) :
    (s.slot b).writeSeq ≤ ((s.setSlot i c).slot b).writeSeq := by
  rw [slot_setSlot]
  split
  · next e => rwa [State.slot, e]
  · exact le_rfl

@[simp] theorem fill_writeSeq : (c.fill b x).writeSeq = c.writeSeq := by
  unfold Slot.fill
  split <;> rfl

@[simp] theorem fill_writesInflight : (c.fill b x).writesInflight = c.writesInflight := by
  unfold Slot.fill
  split <;> rfl

theorem fill_eq_none (h : (c.fill b x).data = none) : c.data = none ∧ c.fill b x = c := by
  unfold Slot.fill at h ⊢
  cases hc : c.data with
  | none => simp
  | some y => simp [hc] at h

/-- A slot that was filled has the new image, and nothing else. -/
theorem fill_data (hn : (c.fill b x).num = b') (hd : (c.fill b x).data = some image) :
    b' = b ∧ image = x := by
  unfold Slot.fill at hn hd
  cases hc : c.data with
  | none => simp [hc] at hd
  | some y =>
    simp only [hc] at hn hd
    exact ⟨hn.symm, (Option.some.inj hd).symm⟩

/-- A block that is still cached when a write on its slot ends was cached before. -/
theorem complete_num {failed : Bool} (h : (c.complete b' failed).num = b) (hb : b ≠ 0) :
    c.num = b := by
  unfold Slot.complete at h
  split at h
  · exact absurd h.symm hb
  · exact h

end Slots

/-- A step that leaves the logs and the slots' counters alone. -/
theorem Later.of_seq (hl : ∀ b, s'.log b = s.log b) (hd : ∀ b, s'.done b = s.done b)
    (hs : ∀ b, (s.slot b).writeSeq ≤ (s'.slot b).writeSeq) : Later s s' :=
  ⟨fun b => (hl b).symm ▸ prefix_rfl, fun b => (hd b).ge, hs, fun b _ => hd b⟩

variable {r floor : ℕ}

namespace Inv

section

variable (h : Inv s)
include h

theorem done_lt (b : ℕ) : s.done b < (s.log b).length := by
  obtain ⟨v, hv, hx⟩ := h.device b
  exact hv.trans_lt (List.getElem?_eq_some_iff.mp hx).1

theorem setReader {rd : Reader} (hrd : ReaderOk s rd) : Inv (s.setReader r rd) := by
  refine { h with readers := fun r' rd' hr => ?_ }
  simp only [State.setReader, update_apply] at hr
  split at hr
  · cases hr
    exact hrd
  · exact h.readers r' rd' hr

theorem setCursor (n : ℕ) : Inv { s with cursor := n } :=
  { h with }

/-- A slot is replaced by one with the same number of writes in flight, and what it then has for a
block is recent. -/
theorem setSlot {i : ℕ} {c : Slot} (hseq : (s.cache i).writeSeq ≤ c.writeSeq)
    (hin : c.writesInflight = (s.cache i).writesInflight) (hempty : c.data = none → c.num = 0)
    (hc : ∀ image, c.num ≠ 0 → c.data = some image → Cached s c.num image) :
    Inv (s.setSlot i c) := by
  have hl : Later s (s.setSlot i c) :=
    Later.of_seq (fun _ => rfl) (fun _ => rfl) fun b => writeSeq_setSlot hseq
  refine ⟨h.device, empty_setSlot h.empty hempty, fun b image hb hh => ?_, fun j => ?_,
    h.transfers, h.nodup, fun r rd hr => (h.readers r rd hr).later hl⟩
  · obtain ⟨-, rfl, hd⟩ | ⟨-, hh⟩ := hit_setSlot hh
    · exact hc image hb hd
    · exact h.cached b image hb hh
  · simp only [State.setSlot, update_apply]
    split
    · next e => rw [hin, e]; exact h.inflight _
    · exact h.inflight j

theorem prepare (i : ℕ) (content : Image) : Inv (prepare s i content) := by
  unfold Concurrent.prepare
  cases hd : (s.cache i).data with
  | some x => exact h
  | none =>
    -- the slot has storage now, but still no block
    refine h.setSlot le_rfl rfl (fun e => absurd e (by simp)) fun image hn _ => ?_
    exact absurd (h.empty i hd) hn

theorem shrinkOne (maxBuffers freed k i : ℕ) : Inv (shrinkOne maxBuffers freed (s, k) i).1 := by
  unfold Concurrent.shrinkOne
  split
  · exact h.setSlot (Nat.le_succ _) rfl (fun _ => rfl) fun image hn _ => absurd rfl hn
  · exact h

theorem shrink (maxBuffers freed : ℕ) : Inv (shrink s maxBuffers freed) := by
  have hloop : ∀ (is : List ℕ) (p : State × ℕ), Inv p.1 →
      Inv (is.foldl (Concurrent.shrinkOne maxBuffers freed) p).1 := by
    intro is
    induction is with
    | nil => exact fun p hp => hp
    | cons i is ih => exact fun p hp => ih _ (hp.shrinkOne maxBuffers freed p.2 i)
  have hr := hloop ((range cacheSize).map fun k => (s.cursor + k) % cacheSize) (s, 0) h
  exact hr.setCursor _

theorem beginRead (m : Mount) (r b : ℕ) : Inv (beginRead m s r b) := by
  unfold Concurrent.beginRead
  split
  · next hb => exact h.setReader fun hb' => absurd hb hb'
  next hb =>
  split
  · exact h.setReader fun _ _ e => nomatch e
  · exact h.setReader ⟨hb, le_rfl⟩

theorem returned_hit (hf : floor ≤ s.done b)
    (hh : s.hit b = some image) : ReaderOk s (.returned b floor (some image)) := by
  rintro hb _ ⟨⟩
  exact (h.cached b image hb hh).1.mono prefix_rfl hf

theorem probe (hr : s.readers r = some (.probe b floor)) : Inv (probe s r b floor) := by
  obtain ⟨hb, hf⟩ := h.readers r _ hr
  unfold Concurrent.probe
  cases hh : s.hit b with
  | some image => exact h.setReader (h.returned_hit hf hh)
  | none =>
    dsimp only
    split
    · exact h
    · exact h.setReader ⟨hb, hf, le_rfl⟩

theorem publish {q : ℕ} {buffer : Image}
    (hr : s.readers r = some (.publish b floor q buffer)) : Inv (publish s r b floor q buffer) := by
  obtain ⟨hb, hf, hq, hx⟩ := h.readers r _ hr
  unfold Concurrent.publish
  cases hh : s.hit b with
  | some image => exact h.setReader (h.returned_hit hf hh)
  | none =>
    dsimp only
    split
    · exact h.setReader ⟨hb, hf⟩
    next hsame =>
    obtain ⟨hseq, hin⟩ : (s.slot b).writeSeq = q ∧ (s.slot b).writesInflight = 0 := by
      simpa using hsame
    have hfresh := hx hseq
    -- no write of a block of this slot is in flight
    have hidle : ∀ t ∈ s.transfers, t.block ≠ b := by
      intro t ht e
      have := h.inflight (b % cacheSize)
      rw [show (s.cache (b % cacheSize)).writesInflight = 0 from hin, eq_comm,
        countP_eq_zero] at this
      exact this t ht (by simp [e])
    have hslot : Inv (s.setSlot (b % cacheSize) ((s.slot b).fill b buffer)) := by
      refine h.setSlot (by simp [State.slot]) (by simp [State.slot]) (fun e => ?_)
        fun image hn hd => ?_
      · obtain ⟨hn, hc⟩ := fill_eq_none e
        rw [hc]
        exact h.empty _ hn
      · obtain ⟨hn, rfl⟩ := fill_data rfl hd
        rw [hn]
        exact ⟨hfresh, fun t ht e => absurd e (hidle t ht)⟩
    exact hslot.setReader fun _ _ e => Option.some.inj e ▸ hfresh.mono prefix_rfl hf

theorem readSectors {q : ℕ} (hr : s.readers r = some (.device b floor q)) :
    Inv (s.setReader r (.publish b floor q (s.device b))) := by
  obtain ⟨hb, hf, hq⟩ := h.readers r _ hr
  exact h.setReader ⟨hb, hf, hq, fun _ => h.device b⟩

end

theorem publishOne_later (s : State) (e : ℕ × Image) : Later s (publishOne s e) := by
  refine ⟨fun b => ?_, fun _ => le_rfl, fun b => writeSeq_setSlot (by simp [State.slot]),
    fun _ _ => rfl⟩
  simp only [publishOne, update_apply]
  split
  · next h => exact h ▸ prefix_append _ _
  · exact prefix_rfl

theorem publishOne (h : Inv s) {e : ℕ × Image} (he : ∀ t ∈ s.transfers, t.block ≠ e.1) :
    Inv (publishOne s e) := by
  have hl := publishOne_later s e
  obtain ⟨b, image⟩ := e
  have hnew : (update s.log b (s.log b ++ [image]) b)[(s.log b).length]? = some image := by
    simp
  refine ⟨fun b' => (h.device b').mono (hl.log b') le_rfl, empty_setSlot h.empty fun hi => ?_,
    fun b' x hb hh => ?_, fun i => ?_, fun t ht => ?_, ?_,
    fun r rd hr => (h.readers r rd hr).later hl⟩
  · obtain ⟨hn, hc⟩ := fill_eq_none hi
    rw [hc]
    exact h.empty _ hn
  · obtain ⟨-, hn, hd⟩ | ⟨e, hh⟩ := hit_setSlot hh
    · obtain ⟨rfl, rfl⟩ := fill_data hn hd
      refine ⟨⟨(s.log b').length, (h.done_lt b').le, hnew⟩, fun t ht e => ?_⟩
      rcases mem_append.mp ht with ht | ht
      · exact absurd e (he t ht)
      · rw [mem_singleton.mp ht]
    obtain ⟨hf, ht⟩ := h.cached b' x hb hh
    refine ⟨hf.mono (hl.log b') le_rfl, fun t hmem e' => ?_⟩
    rcases mem_append.mp hmem with hmem | hmem
    · exact ht t hmem e'
    · rw [mem_singleton.mp hmem] at e'
      exact absurd (congrArg (· % cacheSize) e'.symm) e
  · simp only [Concurrent.publishOne, State.setSlot, update_apply, countP_append,
      countP_singleton, beq_iff_eq]
    have := h.inflight i
    split
    · next e => simp [State.slot, ← e, this]
    · next e => rw [if_neg (fun e' => e e'.symm), this]; rfl
  · rcases mem_append.mp ht with ht | ht
    · obtain ⟨hd, hv, hw⟩ := h.transfers t ht
      exact ⟨hd, getElem?_of_prefix (hl.log _) hv, hw⟩
    · rw [mem_singleton.mp ht]
      exact ⟨(h.done_lt b).le, hnew, fun e => nomatch e⟩
  · simp only [Concurrent.publishOne, map_append]
    refine nodup_append.mpr ⟨h.nodup, nodup_singleton _, ?_⟩
    rintro _ hx _ hy rfl
    obtain ⟨t, ht, e⟩ := mem_map.mp hx
    exact he t ht (e.trans (mem_singleton.mp hy))

theorem write (h : Inv s) {es : List (ℕ × Image)} (hnodup : (es.map Prod.fst).Nodup)
    (hnew : ∀ t ∈ s.transfers, t.block ∉ es.map Prod.fst) :
    Inv (es.foldl Concurrent.publishOne s) := by
  induction es generalizing s with
  | nil => exact h
  | cons e es ih =>
    simp only [map_cons, nodup_cons, mem_cons, not_or] at hnodup hnew
    refine ih (h.publishOne fun t ht => (hnew t ht).1) hnodup.2 fun t ht => ?_
    rcases mem_append.mp ht with ht | ht
    · exact (hnew t ht).2
    · rw [mem_singleton.mp ht]
      exact hnodup.1

theorem writeSectors (h : Inv s) {i : ℕ} (hs : writeSectors s i = some s') : Inv s' := by
  unfold Concurrent.writeSectors at hs
  rcases hi : s.transfers[i]? with _ | t
  · simp [hi] at hs
  simp only [hi, Option.some.injEq] at hs
  subst hs
  obtain ⟨hlt, hget⟩ := List.getElem?_eq_some_iff.mp hi
  have ht : t ∈ s.transfers := hget ▸ getElem_mem hlt
  obtain ⟨hd, hv, -⟩ := h.transfers t ht
  have hblocks : (s.transfers.set i { t with written := true }).map Transfer.block =
      s.transfers.map Transfer.block := by
    refine ext_getElem? fun j => ?_
    rw [getElem?_map, getElem?_map, getElem?_set]
    split
    · next e => simp [← e, hlt, hget]
    · rfl
  -- the other members of the write have other blocks
  have hmem : ∀ t' ∈ s.transfers.set i { t with written := true },
      (t' ∈ s.transfers ∧ t'.block ≠ t.block) ∨ t' = { t with written := true } := by
    intro t' ht'
    obtain ⟨j, hj⟩ := mem_iff_getElem?.mp ht'
    rw [getElem?_set] at hj
    split at hj
    · exact .inr (by simpa [hlt, eq_comm] using hj)
    next e =>
    refine .inl ⟨mem_iff_getElem?.mpr ⟨j, hj⟩, fun hb => e ?_⟩
    refine (getElem?_inj (by simpa using hlt) h.nodup).mp ?_
    simp [hi, hj, hb]
  have himage : ∀ t' ∈ s.transfers.set i { t with written := true },
      ∃ t'' ∈ s.transfers, t''.block = t'.block ∧ t''.image = t'.image := by
    intro t' ht'
    rcases hmem t' ht' with ⟨h', -⟩ | rfl
    · exact ⟨t', h', rfl, rfl⟩
    · exact ⟨t, ht, rfl, rfl⟩
  have hcount : ∀ p : ℕ → Bool, (s.transfers.set i { t with written := true }).countP
      (fun t => p t.block) = s.transfers.countP fun t => p t.block := by
    intro p
    have := congrArg (countP p) hblocks
    rwa [countP_map, countP_map] at this
  refine ⟨fun b => ?_, h.empty, fun b x hb hh => ?_, fun j => ?_, fun t' ht' => ?_, ?_, h.readers⟩
  · change Fresh s b (s.done b) (update s.device t.block t.image b)
    rw [update_apply]
    split
    · next e => exact ⟨t.version, e ▸ hd, e ▸ hv⟩
    · exact h.device b
  · obtain ⟨hf, hx⟩ := h.cached b x hb hh
    refine ⟨hf, fun t' ht' e => ?_⟩
    obtain ⟨t'', h', hb', himg⟩ := himage t' ht'
    rw [hx t'' h' (hb'.trans e), himg]
  · exact (h.inflight j).trans (hcount fun b => b % cacheSize == j).symm
  · rcases hmem t' ht' with ⟨h', hne⟩ | rfl
    · obtain ⟨hd', hv', hw'⟩ := h.transfers t' h'
      exact ⟨hd', hv', fun e => (update_of_ne hne _ _).trans (hw' e)⟩
    · exact ⟨hd, hv, fun _ => update_self _ _ _⟩
  · rw [hblocks]
    exact h.nodup

theorem finishOne {t : Transfer} {ts : List Transfer} (h : Inv s) (hts : s.transfers = t :: ts)
    {failed : Bool} (hw : failed = true ∨ t.written = true) :
    Inv (finishOne { s with transfers := ts } t failed) := by
  obtain ⟨hd, hv, hdev⟩ := h.transfers t (hts ▸ mem_cons_self)
  have hnodup := h.nodup
  rw [hts, map_cons, nodup_cons] at hnodup
  have hother : ∀ t' ∈ ts, t'.block ≠ t.block := fun t' ht' e =>
    hnodup.1 (mem_map.mpr ⟨t', ht', e⟩)
  have hdone : ∀ b, s.done b ≤ (Concurrent.finishOne { s with transfers := ts } t failed).done b ∧
      (b ≠ t.block ∨ failed = true →
        (Concurrent.finishOne { s with transfers := ts } t failed).done b = s.done b) := by
    intro b
    cases failed with
    | true => exact ⟨le_rfl, fun _ => rfl⟩
    | false =>
      simp only [Concurrent.finishOne, Bool.false_eq_true, if_false, update_apply]
      split
      · next e => exact ⟨e ▸ hd, fun h' => absurd e (by simpa using h')⟩
      · exact ⟨le_rfl, fun _ => rfl⟩
  have hfresh : ∀ {b x}, Fresh s b (s.done b) x → (b = t.block → failed = false → x = t.image) →
      Fresh s b ((Concurrent.finishOne { s with transfers := ts } t failed).done b) x := by
    intro b x hf hx
    by_cases hb : b ≠ t.block ∨ failed = true
    · rwa [(hdone b).2 hb]
    obtain ⟨rfl, rfl⟩ : b = t.block ∧ failed = false := by simpa using hb
    exact ⟨t.version, by simp [Concurrent.finishOne], hx rfl rfl ▸ hv⟩
  have hl : Later s (Concurrent.finishOne { s with transfers := ts } t failed) := by
    refine ⟨fun b => prefix_rfl, fun b => (hdone b).1, fun b => ?_, fun b hb => ?_⟩
    · exact writeSeq_setSlot (by simp [State.slot, Slot.complete])
    · change (State.slot (State.setSlot _ _ _) b).writeSeq = _ at hb
      rw [slot_setSlot] at hb
      split at hb
      · next e => simp [State.slot, Slot.complete, e] at hb
      · next e => exact (hdone b).2 (.inl fun e' => e (congrArg (· % cacheSize) e'))
  refine ⟨fun b => ?_, empty_setSlot h.empty fun hi => ?_, fun b x hb hh => ?_, fun i => ?_,
    fun t' ht' => ?_, hnodup.2, fun r rd hr => (h.readers r rd hr).later hl⟩
  · exact hfresh (h.device b) fun e hf => e ▸ hdev (hw.resolve_left (by simp [hf]))
  · have := h.empty _ hi
    simp only [Slot.complete, State.slot] at this ⊢
    simp [this]
  · -- what is cached at the end of the write was cached before
    have hbefore : s.hit b = some x := by
      obtain ⟨e, hn, hx⟩ | ⟨-, hh⟩ := hit_setSlot hh
      · have hn := complete_num hn hb
        rw [hit_eq_some, State.slot, e]
        exact ⟨hn, hx⟩
      · exact hh
    obtain ⟨hf, ht⟩ := h.cached b x hb hbefore
    refine ⟨hfresh hf fun e _ => ht t (hts ▸ mem_cons_self) e.symm, fun t' ht' => ?_⟩
    exact ht t' (hts ▸ mem_cons_of_mem _ ht')
  · have := h.inflight i
    rw [hts] at this
    simp only [Concurrent.finishOne, State.setSlot, update_apply]
    split
    · next e =>
      simp only [Slot.complete, State.slot]
      simp [e] at this
      rw [e, this]
      rfl
    · next e =>
      simpa [Ne.symm e] using this
  · obtain ⟨hd', hv', hw'⟩ := h.transfers t' (hts ▸ mem_cons_of_mem _ ht')
    refine ⟨?_, hv', hw'⟩
    rw [(hdone t'.block).2 (.inl (hother t' ht'))]
    exact hd'

theorem finish (h : Inv s) {failed : List Bool}
    (hw : ∀ p ∈ s.transfers.zip failed, p.2 = true ∨ p.1.written = true) :
    Inv (finish s s.transfers failed) := by
  generalize hts : s.transfers = ts at hw
  induction ts generalizing s failed with
  | nil => exact h
  | cons t ts ih =>
    cases failed with
    | nil => exact h
    | cons f fs =>
      refine ih (h.finishOne hts (hw (t, f) mem_cons_self)) rfl fun p hp => ?_
      exact hw p (mem_cons_of_mem _ hp)

theorem step {m : Mount} {e : Event} (h : Inv s) (hc : Careful m s e)
    (hs : step m s e = some s') : Inv s' := by
  cases e with
  | read r b =>
    simp only [Concurrent.step] at hs
    split at hs
    · cases hs
      exact h.beginRead m r b
    · cases hs
      exact h.beginRead m r b
    · cases hs
  | probe r =>
    simp only [Concurrent.step] at hs
    split at hs
    · next hr =>
      cases hs
      exact h.probe hr
    · cases hs
  | readSectors r err =>
    simp only [Concurrent.step] at hs
    split at hs
    · next hr =>
      cases hs
      split
      · exact h.setReader fun _ _ e => nomatch e
      · exact h.readSectors hr
    · cases hs
  | publish r =>
    simp only [Concurrent.step] at hs
    split at hs
    · next hr =>
      cases hs
      exact h.publish hr
    · cases hs
  | prepare i content =>
    cases hs
    exact h.prepare i content
  | shrink maxBuffers freed =>
    obtain rfl := Option.some.inj hs
    exact h.shrink maxBuffers freed
  | write q =>
    simp only [Concurrent.step] at hs
    split at hs
    · next hts hes =>
      cases hs
      have h' : Inv { s with oneResult := q.oneResult } := { h with }
      refine h'.write (by simpa [Careful, hes] using hc) fun t ht => ?_
      rw [show s.transfers = [] from hts] at ht
      cases ht
    · cases hs
  | writeSectors i => exact h.writeSectors hs
  | finish failed =>
    simp only [Concurrent.step] at hs
    split at hs
    · next hok =>
      cases hs
      refine h.finish fun p hp => ?_
      simp only [canFinish, Bool.and_eq_true, all_eq_true] at hok
      simpa using hok.1.2 p hp
    · cases hs

end Inv

theorem Initial.inv (h : Initial s) : Inv s := by
  have hmiss : ∀ b image, s.hit b ≠ some image := by
    intro b image hh
    rw [hit_eq_some, State.slot, (h.cache _).2.1] at hh
    exact nomatch hh.2
  refine ⟨fun b => ⟨0, (h.done b).le, by rw [h.log b]; rfl⟩, fun i _ => (h.cache i).1,
    fun b image _ hh => absurd hh (hmiss b image), fun i => ?_, fun t ht => ?_, ?_,
    fun r rd hr => ?_⟩
  · rw [(h.cache i).2.2, h.transfers]
    rfl
  · rw [h.transfers] at ht
    cases ht
  · rw [h.transfers]
    exact nodup_nil
  · rw [h.readers r] at hr
    cases hr

/-- **Nothing stale is returned or kept.**  In every run whose batches name each block once, what a
reader returns for a block other than 0 was written by the last write that was complete when the
reader began, or by a later one; and what the cache has for such a block was written by the last
completed write or a later one. -/
theorem not_stale {m : Mount} {s0 s : State} {es : List Event} (h0 : Initial s0)
    (hok : Along (step m) (Careful m) s0 es) (hr : run (step m) s0 es = some s) :
    (∀ r b floor image, b ≠ 0 → s.readers r = some (.returned b floor (some image)) →
        Fresh s b floor image) ∧
      ∀ b image, b ≠ 0 → s.hit b = some image → Fresh s b (s.done b) image := by
  have h : Inv s := run_invariant Inv (fun _ _ _ hi hc hs => hi.step hc hs) h0.inv hok hr
  refine ⟨fun r b floor image hb hrd => ?_, fun b image hb hh => (h.cached b image hb hh).1⟩
  exact h.readers r _ hrd hb image rfl

/-! ## Two runs -/

namespace Volume

def mount : Mount := .plain 4096 (by decide)

def mounted : State where
  cache _ := ⟨0, none, 0, 0⟩
  cursor := 0
  device _ := zero
  readers _ := none
  transfers := []
  oneResult := true
  log _ := [zero]
  done _ := 0

theorem mounted_initial : Initial mounted :=
  ⟨fun _ => ⟨rfl, rfl, rfl⟩, fun _ => rfl, rfl, fun _ => rfl, fun _ => rfl⟩

def ones : Image := fun _ => 1

/-- A reader of block 1 has read the device when a batch writes that block and another one of the
same slot; it starts again, finds the other block cached, and reads the device once more. -/
def overtaken : List Event :=
  [.prepare 1 zero, .read 0 1, .probe 0, .readSectors 0 false,
    .write (.batch [(1, ones), (2049, ones)]), .publish 0, .probe 0, .writeSectors 1,
    .writeSectors 0, .finish [false, false], .probe 0, .readSectors 0 false, .publish 0]

/-- Block 0 is written, and read when the write is over. -/
def superblock : List Event :=
  [.write (.block 0 ones), .writeSectors 0, .finish [false], .read 0 0]

end Volume

open Volume in
theorem not_stale_overtaken : ∃ s, run (step mount) mounted overtaken = some s ∧
    s.readers 0 = some (.returned 1 0 (some ones)) ∧ Fresh s 1 0 ones := by
  have hok : Along (step mount) (Careful mount) mounted overtaken := by decide +kernel
  refine ⟨_, rfl, rfl, ?_⟩
  exact (not_stale mounted_initial hok rfl).1 0 1 0 ones (by decide) rfl

open Volume in
/-- The write of block 0 is complete, and a later read returns what was there before. -/
theorem superblock_stale : Initial mounted ∧ ∃ s, run (step mount) mounted superblock = some s ∧
    s.readers 0 = some (.returned 0 1 (some zero)) ∧ ¬ Fresh s 0 1 zero := by
  refine ⟨mounted_initial, _, rfl, rfl, ?_⟩
  rintro ⟨v, hv, hx⟩
  -- the log is the old content and then the new one
  match v, hv with
  | 1, _ => exact absurd (congrFun (Option.some.inj hx) 0) (by decide)
  | v + 2, _ => exact nomatch hx

end AvoryOS.Ext2.Concurrent
