import AvoryOS.Ext3.Replay

/-!
# Committing the closed set

`commitClosed` is `ext3_commit_closed`: the images of the closed set go to the log as one
transaction, and from there to their home blocks.  Its value is the list of batches it
issues, whether it succeeded, and the journal state afterwards; what the device holds
when the machine stops during a commit is then `Device.CrashState`.

The position of a payload is the one `ext3_merge_running` assigns, which is a function of
the entry's index in the closed set.
-/

namespace AvoryOS.Ext3

open Bytes Device Bool

/-- A staged image: a home block and what is to be written there. -/
abbrev Entry := ℕ × Image

abbrev Batches := List (List (ℕ × Image))

/-- `EXT3_COMMIT_WRITE_BATCH`. -/
def commitWriteBatch : ℕ := 32

/-! ## Encoding -/

/-- The image starts with the journal magic and has to be escaped in the log. -/
def needsEscape (b : Image) : Bool := getBe b 0 4 == magicNumber

/-- The copy of an image that goes to the log. -/
def logCopy (b : Image) : Image := if needsEscape b then putBe b 0 4 0 else b

/-- `0` or `SAME_UUID`, with `ESCAPE` and `LAST_TAG` where they apply. -/
def mkFlags (first escape last : Bool) : ℕ :=
  (if first then 0 else 2) ||| (if escape then 1 else 0) ||| (if last then 8 else 0)

/-- Store one tag, in the layout of the journal's features. -/
def putTag (is64 : Bool) (b : Image) (off block flags : ℕ) : Image :=
  let b := putBe (putBe (putBe b off 4 block) (off + 4) 2 0) (off + 6) 2 flags
  if is64 then putBe b (off + 8) 4 (block / 2 ^ 32) else b

/-- The tag loop of one descriptor, from a given offset. -/
def putTags (is64 : Bool) (uuid : Image) : Bool → ℕ → List Entry → Image → Image
  | _, _, [], b => b
  | first, off, e :: es, b =>
    let b := putTag is64 b off e.1 (mkFlags first (needsEscape e.2) es.isEmpty)
    let b := if first then copyIn b (off + tagSize is64) 16 uuid 0 else b
    putTags is64 uuid false (off + tagSize is64 + if first then 16 else 0) es b

def descriptorImage (t : Journal) (segment : List Entry) : Image :=
  putTags t.is64 t.uuid true 12 segment (putHeader zero descriptorBlock t.sequence)

def commitImage (t : Journal) : Image := putHeader zero commitBlock t.sequence

/-! ## Stages -/

/-- An empty batch is not issued. -/
def flushBatch (batch : List (ℕ × Image)) : Batches := if batch.isEmpty then [] else [batch]

/-- The payload loop, at entry `index` and with a gathered batch.  An escaped copy is
written alone, after the batch before it.  False when a position has no block. -/
def payloadBatches (m : Mount) (journalBlocks tagcap : ℕ) :
    ℕ → List Entry → List (ℕ × Image) → Bool × Batches
  | _, [], batch => (true, flushBatch batch)
  | index, e :: es, batch =>
    let phys := journalPhys m journalBlocks (payloadPos index tagcap)
    if phys = 0 then (false, [])
    else if needsEscape e.2 then
      let r := payloadBatches m journalBlocks tagcap (index + 1) es []
      (r.1, flushBatch batch ++ [(phys, logCopy e.2)] :: r.2)
    else
      let batch' := batch ++ [(phys, e.2)]
      if batch'.length = commitWriteBatch then
        let r := payloadBatches m journalBlocks tagcap (index + 1) es []
        (r.1, batch' :: r.2)
      else payloadBatches m journalBlocks tagcap (index + 1) es batch'

/-- The descriptor loop, at entry `index`: one descriptor for each group of `tagcap`
entries. -/
def descriptorBatches (m : Mount) (t : Journal) (tagcap : ℕ) : ℕ → ℕ → List Entry → Bool × Batches
  | 0, _, _ => (true, [])
  | fuel + 1, index, es =>
    if es.isEmpty then (true, [])
    else
      let segment := es.take tagcap
      let index' := index + segment.length
      let phys := journalPhys m t.journalBlocks (descPos (index' - 1) tagcap)
      if phys = 0 then (false, [])
      else
        let r := descriptorBatches m t tagcap fuel index' (es.drop tagcap)
        (r.1, [(phys, descriptorImage t segment)] :: r.2)

/-- The checkpoint loop, with a gathered batch. -/
def homeBatches : List Entry → List (ℕ × Image) → Batches
  | [], batch => flushBatch batch
  | e :: es, batch =>
    let batch' := batch ++ [e]
    if batch'.length = commitWriteBatch then batch' :: homeBatches es []
    else homeBatches es batch'

/-- The log head `ext3_journal_start` chooses for the transaction of a handle. -/
def startHandle (t : Journal) : Journal := { t with startBlock := 1 }

structure Commit where
  ok : Bool
  batches : Batches
  journal : Journal

/-- `ext3_commit_closed` on a device without I/O errors. -/
def commitClosed (m : Mount) (t : Journal) (closed : List Entry) (d : Disk) : Commit :=
  let n := closed.length
  let tagcap := tagCapacity m t.is64
  if n = 0 then ⟨true, [], t⟩
  else if tagcap = 0 then ⟨false, [], t⟩
  else
    let segments := (n + tagcap - 1) / tagcap
    let commitPhys := journalPhys m t.journalBlocks (payloadPos (n - 1) tagcap + 1)
    let sbPhys := journalPhys m t.journalBlocks 0
    if journalSegMax < segments ∨ commitPhys = 0 ∨ sbPhys = 0 then ⟨false, [], t⟩
    else if m.scratch = false then ⟨false, [], t⟩
    else
      let payloads := payloadBatches m t.journalBlocks tagcap 0 closed []
      if payloads.1 = false then ⟨false, payloads.2, t⟩
      else
        let descriptors := descriptorBatches m t tagcap n 0 closed
        if descriptors.1 = false then ⟨false, payloads.2 ++ descriptors.2, t⟩
        else
          let log := payloads.2 ++ descriptors.2 ++ [[(commitPhys, commitImage t)]]
          -- the superblock is read back before the log head is published
          let sb := setStart (writeAll log.flatten d sbPhys) t.startBlock
          let sb' := setStart (setSequence sb (nextSequence t.sequence)) 0
          ⟨true, log ++ [[(sbPhys, sb)]] ++ homeBatches closed [] ++ [[(sbPhys, sb')]],
            { t with sequence := nextSequence t.sequence }⟩

/-! ## Decoding what was encoded -/

section Flags

variable (first escape last : Bool)

@[simp] theorem flagEscape_mkFlags : flagEscape (mkFlags first escape last) = escape := by
  cases first <;> cases escape <;> cases last <;> decide

@[simp] theorem flagSameUuid_mkFlags : flagSameUuid (mkFlags first escape last) = !first := by
  cases first <;> cases escape <;> cases last <;> decide

@[simp] theorem flagDeleted_mkFlags : flagDeleted (mkFlags first escape last) = false := by
  cases first <;> cases escape <;> cases last <;> decide

@[simp] theorem flagLastTag_mkFlags : flagLastTag (mkFlags first escape last) = last := by
  cases first <;> cases escape <;> cases last <;> decide

theorem mkFlags_lt : mkFlags first escape last < 256 ^ 2 := by
  cases first <;> cases escape <;> cases last <;> decide

end Flags

theorem payloadImage_logCopy (first last : Bool) (b : Image) :
    payloadImage (mkFlags first (needsEscape b) last) (logCopy b) = b := by
  simp only [payloadImage, flagEscape_mkFlags, logCopy]
  cases h : needsEscape b with
  | false => simp
  | true =>
    have hmagic : getBe b 0 4 = magicNumber := by simpa [needsEscape] using h
    simp only [if_true, putBe_putBe]
    rw [← hmagic, putBe_getBe]

theorem magic_logCopy (b : Image) : (header (logCopy b)).magic ≠ magicNumber := by
  simp only [header, logCopy]
  cases h : needsEscape b with
  | false => simpa [needsEscape] using h
  | true =>
    rw [if_pos rfl, getBe_putBe]
    decide

theorem putTag_other (is64 : Bool) (b : Image) {off block flags i : ℕ}
    (h : i < off ∨ off + tagSize is64 ≤ i) : putTag is64 b off block flags i = b i := by
  cases is64 with
  | false =>
    simp only [tagSize, false_eq_true, if_false] at h
    simp only [putTag, false_eq_true, if_false]
    rw [putBe_other _ (by omega), putBe_other _ (by omega), putBe_other _ (by omega)]
  | true =>
    simp only [tagSize, if_true] at h
    simp only [putTag, if_true]
    rw [putBe_other _ (by omega), putBe_other _ (by omega), putBe_other _ (by omega),
      putBe_other _ (by omega)]

theorem tagFlags_putTag (is64 : Bool) (b : Image) {off block flags : ℕ} (hf : flags < 256 ^ 2) :
    tagFlags (putTag is64 b off block flags) off = flags := by
  have hput : getBe (putBe (putBe (putBe b off 4 block) (off + 4) 2 0) (off + 6) 2 flags)
      (off + 6) 2 = flags := by
    rw [getBe_putBe, Nat.mod_eq_of_lt hf]
  cases is64 with
  | false => simpa [tagFlags, putTag] using hput
  | true =>
    simp only [tagFlags, putTag, if_true]
    rw [getBe_putBe_of_disjoint _ (by omega), hput]

def tagBlockBound (is64 : Bool) : ℕ := if is64 then 2 ^ 64 else 2 ^ 32

theorem tagBlock_putTag (is64 : Bool) (b : Image) {off block flags : ℕ}
    (hb : block < tagBlockBound is64) :
    tagBlock is64 (putTag is64 b off block flags) off = block := by
  have hlow : getBe (putBe (putBe (putBe b off 4 block) (off + 4) 2 0) (off + 6) 2 flags)
      off 4 = block % 256 ^ 4 := by
    rw [getBe_putBe_of_disjoint _ (by omega), getBe_putBe_of_disjoint _ (by omega), getBe_putBe]
  cases is64 with
  | false =>
    simp only [tagBlockBound, false_eq_true, if_false] at hb
    simp only [tagBlock, putTag, false_eq_true, if_false]
    omega
  | true =>
    simp only [tagBlockBound, if_true] at hb
    simp only [tagBlock, putTag, if_true]
    rw [getBe_putBe, getBe_putBe_of_disjoint _ (by omega)]
    omega

theorem tag_congr {is64 : Bool} {a b : Image} {off : ℕ}
    (h : ∀ i, off ≤ i → i < off + tagSize is64 → a i = b i) :
    tagFlags a off = tagFlags b off ∧ tagBlock is64 a off = tagBlock is64 b off := by
  have hs := tagSize_cases is64
  refine ⟨getBe_congr fun i h1 h2 => h i (by omega) (by omega), ?_⟩
  have hlow : getBe a off 4 = getBe b off 4 := getBe_congr fun i h1 h2 => h i (by omega) (by omega)
  cases is64 with
  | false => simp [tagBlock, hlow]
  | true =>
    have hhigh : getBe a (off + 8) 4 = getBe b (off + 8) 4 :=
      getBe_congr fun i h1 h2 => h i (by omega) (by simp only [tagSize, if_true]; omega)
    simp [tagBlock, hlow, hhigh]

def segmentTags : Bool → List Entry → List LogTag
  | _, [] => []
  | first, e :: es =>
    ⟨mkFlags first (needsEscape e.2) es.isEmpty, e.1, e.2⟩ :: segmentTags false es

theorem putTags_other (is64 : Bool) (uuid : Image) {es : List Entry} :
    ∀ {first : Bool} {off i : ℕ} (b : Image), i < off →
      putTags is64 uuid first off es b i = b i := by
  induction es with
  | nil => intro first off i b _; rfl
  | cons e es ih =>
    intro first off i b hi
    rw [putTags, ih _ (by omega)]
    split
    · rw [copyIn_other _ _ (by omega), putTag_other _ _ (by omega)]
    · rw [putTag_other _ _ (by omega)]

theorem putTags_tagsAt {is64 : Bool} {bs : ℕ} (uuid : Image) {es : List Entry} :
    ∀ {first : Bool} {off : ℕ} (b : Image), es ≠ [] → (∀ e ∈ es, e.1 < tagBlockBound is64) →
      off + (if first then 16 else 0) + es.length * tagSize is64 ≤ bs →
      TagsAt bs is64 (putTags is64 uuid first off es b) off (segmentTags first es) := by
  induction es with
  | nil => intro first off b hne; exact absurd rfl hne
  | cons e es ih =>
    intro first off b _ hlt hfit
    rw [List.length_cons, Nat.succ_mul] at hfit
    -- the first tag is not touched by the ones after it
    have hkeep : ∀ i, off ≤ i → i < off + tagSize is64 →
        putTags is64 uuid first off (e :: es) b i =
          putTag is64 b off e.1 (mkFlags first (needsEscape e.2) es.isEmpty) i := by
      intro i h1 h2
      rw [putTags, putTags_other _ _ _ (by omega)]
      split
      · rw [copyIn_other _ _ (by omega)]
      · rfl
    refine ⟨?_, ?_, ?_, ?_⟩
    · rw [(tag_congr hkeep).1, tagFlags_putTag _ _ (mkFlags_lt _ _ _)]
    · rw [(tag_congr hkeep).2, tagBlock_putTag _ _ (hlt e List.mem_cons_self)]
    · cases first <;> simp at hfit ⊢ <;> omega
    simp only [flagLastTag_mkFlags, flagSameUuid_mkFlags]
    cases es with
    | nil => simp [segmentTags]
    | cons e' es =>
      have hoff : (if (!first) = true then 0 else 16) = if first = true then 16 else 0 := by
        cases first <;> rfl
      rw [hoff]
      refine ih _ (by simp) (fun x hx => hlt x (List.mem_cons_of_mem _ hx)) ?_
      simp only [false_eq_true, if_false]
      omega

end AvoryOS.Ext3
