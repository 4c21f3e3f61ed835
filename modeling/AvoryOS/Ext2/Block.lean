import AvoryOS.Ext3.Handle

/-!
# The block layer

Reads go through three places: the images staged in the journal, a direct-mapped cache, and
the device.  Metadata is written by staging it, file data by writing the device directly; a
direct write also fills the cache.

`Coherent` ties a volume to what was written to it: what a read returns is what was last
written, by either route, as long as no direct write goes to a block with a staged image.

The model is of one thread after another: the in-flight counters of the cache, which only
matter to a reader that overlaps a write, are left out.
-/

namespace AvoryOS.Ext2

open Bytes Device Ext3 Function List

/-- `EXT2_CACHE_SIZE`. -/
def cacheSize : ℕ := 2048

/-- A slot of the cache.  `num` is 0 when the slot holds no block; `data` is `none` while the
slot has no storage. -/
structure Slot where
  num : ℕ
  data : Option Image

structure Vol where
  store : Store
  cache : ℕ → Slot
  active : Bool

/-! ## Staged images -/

/-- The image a write-set has for a block. -/
def lookup (es : List Entry) (b : ℕ) : Option Image := (es.find? fun e => e.1 == b).map Prod.snd

/-- `ext3_journal_read_staged`. -/
def readStaged (s : Store) (b : ℕ) : Option Image := (lookup s.running b).or (lookup s.closed b)

/-! ## The cache -/

/-- Install the image of a block.  `got` says for which blocks storage could be allocated
when their slot has none. -/
def publish (got : ℕ → Bool) (cache : ℕ → Slot) (b : ℕ) (image : Image) : ℕ → Slot :=
  if (cache (b % cacheSize)).data.isSome || got b then
    update cache (b % cacheSize) ⟨b, some image⟩
  else cache

def invalidate (cache : ℕ → Slot) (b : ℕ) : ℕ → Slot :=
  if (cache (b % cacheSize)).num = b then
    update cache (b % cacheSize) ⟨0, (cache (b % cacheSize)).data⟩
  else cache

/-- Take away the storage of a slot, as `ext2_buffer_cache_shrink` does. -/
def evict (cache : ℕ → Slot) (i : ℕ) : ℕ → Slot := update cache i ⟨0, none⟩

def hit (cache : ℕ → Slot) (b : ℕ) : Option Image :=
  if (cache (b % cacheSize)).num = b then (cache (b % cacheSize)).data else none

/-! ## Reading and writing -/

/-- `ext2_read_block`. -/
def readBlock (m : Mount) (got : ℕ → Bool) (v : Vol) (b : ℕ) : Option Image × Vol :=
  match readStaged v.store b with
  | some image => (some image, v)
  | none =>
    -- block 0 is the sentinel of a hole
    if b = 0 then (some zero, v)
    else if m.blocksCount ≤ b then (none, v)
    else match hit v.cache b with
      | some image => (some image, v)
      | none =>
        (some (v.store.disk b), { v with cache := publish got v.cache b (v.store.disk b) })

/-- The cache and the device after one block is written. -/
def putBlock (got : ℕ → Bool) (v : Vol) (b : ℕ) (image : Image) : Vol :=
  { v with
    cache := publish got v.cache b image
    store := { v.store with disk := update v.store.disk b image } }

/-- `ext2_write_block`. -/
def writeBlock (m : Mount) (got : ℕ → Bool) (v : Vol) (b : ℕ) (image : Image) : Bool × Vol :=
  if m.readOnly || m.blocksCount ≤ b then (false, v) else (true, putBlock got v b image)

def putBlocks (got : ℕ → Bool) (v : Vol) : List (ℕ × Image) → Vol
  | [] => v
  | w :: ws => putBlocks got (putBlock got v w.1 w.2) ws

/-- `ext2_write_blocks`. -/
def writeBlocks (m : Mount) (got : ℕ → Bool) (v : Vol) (first : ℕ) (images : List Image) :
    Bool × Vol :=
  if m.readOnly || first = 0 || images.isEmpty || 32 < images.length ||
      m.blocksCount ≤ first || m.blocksCount - first < images.length then (false, v)
  else (true, putBlocks got v (images.mapIdx fun i image => (first + i, image)))

/-- The cache holds a completed image with the same bytes. -/
def unchanged (m : Mount) (v : Vol) (b : ℕ) (image : Image) : Bool :=
  match hit v.cache b with
  | some old => decide (SameBytes m.blockSize old image)
  | none => false

/-- `ext3_journal_block`, by the owner when a transaction is open. -/
def journal (m : Mount) (got : ℕ → Bool) (v : Vol) (b : ℕ) (image : Image) : Bool × Vol :=
  if m.readOnly then (false, v)
  else if v.active then
    let r := journalBlock m (unchanged m v b image) v.store b image
    (r.1, { v with store := r.2 })
  else writeBlock m got v b image

/-! ## The ends of a handle -/

/-- The part of `ext3_journal_start` that opens a transaction. -/
def start (v : Vol) : Vol := { v with store := startStore v.store, active := true }

/-- `ext3_commit_closed`: its device writes go through the cache. -/
def commit (m : Mount) (got : ℕ → Bool) (v : Vol) : Bool × Vol :=
  let ws := (commitClosed m v.store.journal v.store.closed v.store.disk).batches.flatten
  ((commitStore m v.store).1,
    { v with store := (commitStore m v.store).2, cache := (putBlocks got v ws).cache })

/-- The merge has to flush the chain first. -/
def mustFlush (m : Mount) (s : Store) : Bool :=
  !s.running.isEmpty &&
    journalSegMax * tagCapacity m s.journal.is64 < s.closed.length + s.running.length

/-- `ext3_merge_running`. -/
def merge (m : Mount) (got : ℕ → Bool) (v : Vol) : Bool × Vol :=
  let flushed := if mustFlush m v.store then (commit m got v).2 else v
  ((mergeRunning m v.store).1, { flushed with store := (mergeRunning m v.store).2 })

/-- The outermost `ext3_journal_stop` up to the merge.  `flushed` is the result of
`ext2_flush_metadata`. -/
def closeHandle (m : Mount) (got : ℕ → Bool) (flushed : Bool) (v : Vol) : Bool × Vol :=
  if v.store.ioFailed || !flushed then (false, { v with store := discardRunning v.store })
  else
    let r := merge m got v
    if r.1 then (true, r.2) else (false, { r.2 with store := discardRunning r.2.store })

/-- The rest of it: the closed set is left to a later handle, or committed. -/
def settle (m : Mount) (got : ℕ → Bool) (waiters fresh : Bool) (v : Vol) : Bool × Vol :=
  if v.store.closed.isEmpty then (true, { v with active := false })
  else if shouldDefer m waiters fresh v.store then
    (true, { v with
      active := false, store := { v.store with closedHandles := v.store.closedHandles + 1 } })
  else
    let r := commit m got v
    (r.1, { r.2 with active := false })

/-! ## Lookups in write-sets -/

variable {b : ℕ}

theorem lookup_eq_none {es : List Entry} : lookup es b = none ↔ staged es b = false := by
  rw [lookup, Option.map_eq_none_iff, find?_eq_none, staged, any_eq_false]

@[simp] theorem lookup_nil (b : ℕ) : lookup [] b = none := rfl

theorem lookup_cons (e : Entry) (es : List Entry) (b : ℕ) :
    lookup (e :: es) b = if e.1 = b then some e.2 else lookup es b := by
  by_cases h : e.1 = b
  · simp [lookup, h]
  · simp [lookup, h]

theorem staged_cons (e : Entry) (es : List Entry) (b : ℕ) :
    staged (e :: es) b = (e.1 == b || staged es b) := rfl

theorem lookup_append (es fs : List Entry) (b : ℕ) :
    lookup (es ++ fs) b = (lookup es b).or (lookup fs b) := by
  induction es with
  | nil => simp
  | cons e es ih =>
    rw [cons_append, lookup_cons, lookup_cons, ih]
    split <;> simp

theorem lookup_setImage (es : List Entry) (b c : ℕ) (image : Image) :
    lookup (setImage es b image) c =
      if c = b ∧ staged es b = true then some image else lookup es c := by
  induction es with
  | nil => simp [setImage, staged]
  | cons e es ih =>
    rw [setImage, map_cons, ← setImage, lookup_cons, lookup_cons, ih, staged_cons]
    by_cases hb : e.1 = b
    · by_cases hc : c = b
      · simp [hb, hc]
      · simp [hb, hc, Ne.symm hc]
    by_cases hc : e.1 = c
    · have hcb : c ≠ b := fun h => hb (hc.trans h)
      simp [hc, hcb]
    · simp [hb, hc]

theorem lookup_mergeEntry (es : List Entry) (e : Entry) (c : ℕ) :
    lookup (mergeEntry es e) c = if e.1 = c then some e.2 else lookup es c := by
  rw [mergeEntry]
  cases hs : staged es e.1 with
  | true => simp [lookup_setImage, hs, eq_comm]
  | false =>
    have hnone := lookup_eq_none.mpr hs
    simp only [Bool.false_eq_true, if_false, lookup_append, lookup_cons]
    by_cases hc : e.1 = c
    · simp [← hc, hnone]
    · simp [hc]

/-- A merged set has the running image of a block, and the closed one where there is none. -/
theorem lookup_mergeEntries {rs : List Entry} (hnd : (rs.map Prod.fst).Nodup) (c : ℕ) :
    ∀ es, lookup (mergeEntries es rs) c = (lookup rs c).or (lookup es c) := by
  induction rs with
  | nil => simp [mergeEntries]
  | cons r rs ih =>
    intro es
    rw [map_cons, nodup_cons] at hnd
    rw [mergeEntries, foldl_cons, ← mergeEntries, ih hnd.2, lookup_mergeEntry, lookup_cons]
    by_cases hc : r.1 = c
    · have hnone : lookup rs c = none := lookup_eq_none.mpr (staged_eq_false.mpr (hc ▸ hnd.1))
      simp [hc, hnone]
    · simp [hc]

theorem writeAll_eq_lookup {es : List Entry} (hnd : (es.map Prod.fst).Nodup) (d : Disk) (b : ℕ) :
    writeAll es d b = (lookup es b).getD (d b) := by
  cases h : es.find? fun e => e.1 == b with
  | none =>
    have hnot : ∀ e ∈ es, e.1 ≠ b := by simpa using find?_eq_none.mp h
    rw [writeAll_other hnot, lookup, h]
    rfl
  | some e =>
    have hb : e.1 = b := by simpa using find?_some h
    have hmem := writeAll_of_mem hnd (mem_of_find?_eq_some h) d
    rw [hb] at hmem
    rw [hmem, lookup, h]
    rfl

/-! ## The cache agrees with the device -/

/-- Every slot that names a block holds what the device holds there. -/
def CacheOk (cache : ℕ → Slot) (d : Disk) : Prop :=
  ∀ i image, (cache i).data = some image → (cache i).num ≠ 0 →
    (cache i).num % cacheSize = i ∧ image = d (cache i).num

variable {image : Image}

namespace CacheOk

variable {cache : ℕ → Slot} {d : Disk}

section

variable (h : CacheOk cache d)
include h

theorem publish (got : ℕ → Bool) (b : ℕ) (image : Image) :
    CacheOk (publish got cache b image) (update d b image) := by
  intro i old hdata hnum
  rw [Ext2.publish] at hdata hnum ⊢
  split at hdata
  swap
  · rename_i hstorage
    rw [if_neg hstorage] at hnum ⊢
    obtain ⟨hmod, hold⟩ := h i old hdata hnum
    refine ⟨hmod, ?_⟩
    rw [update_of_ne, hold]
    -- a slot without storage holds no image of the block
    intro heq
    simp [← heq, hmod, hdata] at hstorage
  rename_i hstorage
  rw [if_pos hstorage] at hnum ⊢
  by_cases hi : i = b % cacheSize
  · subst hi
    rw [update_self] at hdata ⊢
    simp only [Option.some.injEq] at hdata
    exact ⟨rfl, by rw [update_self, hdata]⟩
  rw [update_of_ne hi] at hdata hnum ⊢
  obtain ⟨hmod, hold⟩ := h i old hdata hnum
  refine ⟨hmod, ?_⟩
  rw [update_of_ne, hold]
  exact fun heq => hi (by rw [← hmod, heq])

theorem publish_read (got : ℕ → Bool) (b : ℕ) : CacheOk (Ext2.publish got cache b (d b)) d := by
  have hpub := h.publish got b (d b)
  rwa [update_eq_self] at hpub

theorem of_update {i : ℕ} {slot : Slot} (hslot : slot.num = 0) :
    CacheOk (update cache i slot) d := by
  intro j image hdata hnum
  by_cases hj : j = i
  · subst hj
    rw [update_self] at hnum
    exact absurd hslot hnum
  · rw [update_of_ne hj] at hdata hnum ⊢
    exact h j image hdata hnum

theorem invalidate (b : ℕ) : CacheOk (Ext2.invalidate cache b) d := by
  rw [Ext2.invalidate]
  split
  · exact h.of_update rfl
  · exact h

theorem evict (i : ℕ) : CacheOk (Ext2.evict cache i) d := h.of_update rfl

theorem eq_of_hit (hb : b ≠ 0) (hhit : hit cache b = some image) : image = d b := by
  rw [hit] at hhit
  split at hhit
  · rename_i hnum
    have hslot := h (b % cacheSize) image hhit (by rwa [hnum])
    rw [hnum] at hslot
    exact hslot.2
  · simp at hhit

end

end CacheOk

variable {got : ℕ → Bool}

theorem CacheOk.putBlocks {ws : List (ℕ × Image)} : ∀ {v : Vol}, CacheOk v.cache v.store.disk →
      CacheOk (putBlocks got v ws).cache (writeAll ws v.store.disk) := by
  induction ws with
  | nil => intro v h; exact h
  | cons w ws ih =>
    intro v h
    exact ih (h.publish got w.1 w.2)

/-! ## What a read returns -/

/-- The contents of a block when the open handle is left out. -/
def settledView (s : Store) (b : ℕ) : Image := (lookup s.closed b).getD (s.disk b)

def view (s : Store) (b : ℕ) : Image := (lookup s.running b).getD (settledView s b)

theorem readStaged_getD (s : Store) (b : ℕ) : (readStaged s b).getD (s.disk b) = view s b := by
  rw [readStaged, view]
  cases lookup s.running b with
  | none => rfl
  | some image => rfl

variable {m : Mount} {v : Vol}

theorem readBlock_eq (h : CacheOk v.cache v.store.disk) (got : ℕ → Bool)
    (hb : b = 0 → readStaged v.store b ≠ none) (hlt : b < m.blocksCount) :
    (readBlock m got v b).1 = some (view v.store b) := by
  rw [← readStaged_getD, readBlock]
  cases hs : readStaged v.store b with
  | some image => rfl
  | none =>
    have hb : b ≠ 0 := fun h0 => hb h0 hs
    simp only [if_neg hb, if_neg (Nat.not_le.mpr hlt), Option.getD_none]
    cases hhit : hit v.cache b with
    | some image => rw [h.eq_of_hit hb hhit]
    | none => rfl

theorem readBlock_vol (h : CacheOk v.cache v.store.disk) (got : ℕ → Bool)
    (b : ℕ) : (readBlock m got v b).2.store = v.store ∧ (readBlock m got v b).2.active = v.active ∧
      CacheOk (readBlock m got v b).2.cache v.store.disk := by
  rw [readBlock]
  split
  · exact ⟨rfl, rfl, h⟩
  split
  · exact ⟨rfl, rfl, h⟩
  split
  · exact ⟨rfl, rfl, h⟩
  split
  · exact ⟨rfl, rfl, h⟩
  · exact ⟨rfl, rfl, h.publish_read got b⟩

/-! ## What a journaled write does -/

/-- What the cache has under number 0 is block 0.  A slot whose block was forgotten has number 0
too, with the bytes of that block. -/
def ZeroSlot (m : Mount) (v : Vol) : Prop :=
  ∀ image, hit v.cache 0 = some image → SameBytes m.blockSize (v.store.disk 0) image

/-- A journaled write touches the image of its own block, in the running set. -/
structure JournalSpec (m : Mount) (v : Vol) (b : ℕ) (image : Image) (r : Bool × Store) :
    Prop where
  closed : r.2.closed = v.store.closed
  disk : r.2.disk = v.store.disk
  other : ∀ x, x ≠ b → lookup r.2.running x = lookup v.store.running x
  failed : r.1 = false → r.2.running = v.store.running
  image : r.1 = true → (b = 0 → ZeroSlot m v) → SameBytes m.blockSize (view r.2 b) image

theorem sameBytes_of_unchanged (h : CacheOk v.cache v.store.disk)
    (hb : b = 0 → ZeroSlot m v) (hrun : staged v.store.running b = false)
    (hclosed : staged v.store.closed b = false) (hsame : unchanged m v b image = true) :
    SameBytes m.blockSize (view v.store b) image := by
  rw [unchanged] at hsame
  split at hsame
  · rename_i old hhit
    have hview : view v.store b = v.store.disk b := by
      simp [view, settledView, lookup_eq_none.mpr hrun, lookup_eq_none.mpr hclosed]
    have hold : SameBytes m.blockSize old image := of_decide_eq_true hsame
    rw [hview]
    by_cases h0 : b = 0
    · subst h0
      exact fun i hi => (hb rfl old hhit i hi).trans (hold i hi)
    · rwa [← h.eq_of_hit h0 hhit]
  · simp at hsame

theorem journalBlock_spec (h : CacheOk v.cache v.store.disk)
    (image : Image) : JournalSpec m v b image
      (journalBlock m (unchanged m v b image) v.store b image) := by
  rcases journalBlock_cases m (unchanged m v b image) v.store b image with
    ⟨ioFailed, heq⟩ | ⟨hrun, heq⟩ | ⟨hrun, hclosed, hsame, heq⟩ | ⟨-, hrun, -, -, heq⟩
  · rw [heq]
    exact ⟨rfl, rfl, fun _ _ => rfl, fun _ => rfl, Bool.noConfusion⟩
  · rw [heq]
    refine ⟨rfl, rfl, ?_, Bool.noConfusion, ?_⟩
    · intro x hx
      simp [lookup_setImage, hx]
    · simp [view, lookup_setImage, hrun, SameBytes.refl]
  · rw [heq]
    exact ⟨rfl, rfl, fun _ _ => rfl, Bool.noConfusion,
      fun _ hb => sameBytes_of_unchanged h hb hrun hclosed hsame⟩
  rw [heq]
  refine ⟨rfl, rfl, ?_, Bool.noConfusion, ?_⟩
  · intro x hx
    simp [lookup_append, lookup_cons, Ne.symm hx]
  · simp [view, lookup_append, lookup_cons, lookup_eq_none.mpr hrun, SameBytes.refl]

/-! ## What was written -/

/-- The specification of a volume with one open handle: the contents last written to every
block, and the contents if the handle is dropped. -/
structure Content where
  latest : ℕ → Image
  stable : ℕ → Image

namespace Content

/-- A direct write cannot be undone. -/
def direct (c : Content) (b : ℕ) (image : Image) : Content :=
  ⟨update c.latest b image, update c.stable b image⟩

/-- A journaled write is part of the open handle. -/
def staged (c : Content) (b : ℕ) (image : Image) : Content :=
  { c with latest := update c.latest b image }

def close (c : Content) : Content := ⟨c.latest, c.latest⟩

def drop (c : Content) : Content := ⟨c.stable, c.stable⟩

variable (c : Content) (b : ℕ) (image : Image) (x : ℕ)

theorem latest_direct : (c.direct b image).latest x = if x = b then image else c.latest x :=
  update_apply _ _ _ _

theorem stable_direct : (c.direct b image).stable x = if x = b then image else c.stable x :=
  update_apply _ _ _ _

theorem latest_staged : (c.staged b image).latest x = if x = b then image else c.latest x :=
  update_apply _ _ _ _

end Content

/-- What a volume holds is what was written to it.  The log is the journal's own. -/
structure Coherent (m : Mount) (t : Journal) (v : Vol) (c : Content) : Prop where
  handle : HandleInv m t v.store
  empty : v.active = false → v.store.running = []
  cache : CacheOk v.cache v.store.disk
  latest : ∀ b, OutsideLog m t.journalBlocks b →
    SameBytes m.blockSize (view v.store b) (c.latest b)
  stable : ∀ b, OutsideLog m t.journalBlocks b →
    SameBytes m.blockSize (settledView v.store b) (c.stable b)

variable {s : Store}

theorem view_of_running_nil (h : s.running = []) (b : ℕ) : view s b = settledView s b := by
  rw [view, h]
  rfl

namespace Coherent

variable {t : Journal} {c : Content}

theorem read (h : Coherent m t v c) (got : ℕ → Bool) (b : ℕ) :
    Coherent m t (readBlock m got v b).2 c := by
  obtain ⟨hstore, hactive, hcache⟩ := readBlock_vol h.cache got b
  refine ⟨?_, ?_, ?_, ?_, ?_⟩
  · rw [hstore]
    exact h.handle
  · rw [hstore, hactive]
    exact h.empty
  · rw [hstore]
    exact hcache
  · rw [hstore]
    exact h.latest
  · rw [hstore]
    exact h.stable

theorem of_cache (h : Coherent m t v c) {cache : ℕ → Slot} (hcache : CacheOk cache v.store.disk) :
    Coherent m t { v with cache := cache } c :=
  { h with cache := hcache }

theorem putBlock (h : Coherent m t v c)
    (hrun : staged v.store.running b = false) (hclosed : staged v.store.closed b = false) :
    Coherent m t (putBlock got v b image) (c.direct b image) := by
  have hsettled : ∀ x, settledView (Ext2.putBlock got v b image).store x =
      if x = b then image else settledView v.store x := by
    intro x
    by_cases hx : x = b
    · subst hx
      simp [settledView, putBlock, lookup_eq_none.mpr hclosed]
    · simp [settledView, Ext2.putBlock, hx]
  have hview : ∀ x, view (Ext2.putBlock got v b image).store x =
      if x = b then image else view v.store x := by
    intro x
    rw [view, hsettled]
    by_cases hx : x = b
    · subst hx
      simp [putBlock, lookup_eq_none.mpr hrun]
    · simp [Ext2.putBlock, hx, view]
  refine ⟨{ h.handle with }, h.empty, h.cache.publish got b image, ?_, ?_⟩
  · intro x hout
    rw [hview, Content.latest_direct]
    split
    · exact SameBytes.refl _ _
    · exact h.latest x hout
  · intro x hout
    rw [hsettled, Content.stable_direct]
    split
    · exact SameBytes.refl _ _
    · exact h.stable x hout

theorem putBlocks {ws : List (ℕ × Image)} : ∀ {v : Vol} {c : Content}, Coherent m t v c →
      (∀ w ∈ ws, staged v.store.running w.1 = false ∧ staged v.store.closed w.1 = false) →
      Coherent m t (putBlocks got v ws) (ws.foldl (fun c w => c.direct w.1 w.2) c) := by
  induction ws with
  | nil => intro v c h _; exact h
  | cons w ws ih =>
    intro v c h hfree
    obtain ⟨hrun, hclosed⟩ := hfree w mem_cons_self
    exact ih (h.putBlock hrun hclosed) fun u hu => hfree u (mem_cons_of_mem _ hu)

theorem stage (h : Coherent m t v c) (hactive : v.active = true) (hs : HandleInv m t s)
    (hclosed : s.closed = v.store.closed) (hdisk : s.disk = v.store.disk)
    (hrunning : ∀ x, x ≠ b → lookup s.running x = lookup v.store.running x)
    (hb : SameBytes m.blockSize (view s b) image) :
    Coherent m t { v with store := s } (c.staged b image) := by
  have hsettled : ∀ x, settledView s x = settledView v.store x := by
    intro x
    rw [settledView, settledView, hclosed, hdisk]
  refine ⟨hs, ?_, ?_, ?_, ?_⟩
  · exact fun hidle => absurd (hactive.symm.trans hidle) (by decide)
  · simpa only [hdisk] using h.cache
  · intro x hout
    rw [Content.latest_staged]
    split
    · rename_i hxb
      subst hxb
      exact hb
    · rename_i hxb
      rw [view, hrunning x hxb, hsettled]
      exact h.latest x hout
  · intro x hout
    rw [hsettled]
    exact h.stable x hout

theorem journalBlock (h : Coherent m t v c) (hactive : v.active = true)
    (h0 : 0 < logLength m t.journalBlocks) (hout : OutsideLog m t.journalBlocks b)
    (hb : b = 0 → ZeroSlot m v) : Coherent m t
      { v with store := (journalBlock m (unchanged m v b image) v.store b image).2 }
      (if (Ext3.journalBlock m (unchanged m v b image) v.store b image).1 then c.staged b image
        else c) := by
  have hhandle : HandleInv m t (Ext3.journalBlock m (unchanged m v b image) v.store b image).2 :=
    h.handle.journalBlock h0 hout
  have hspec := journalBlock_spec (m := m) (b := b) h.cache image
  cases hok : (Ext3.journalBlock m (unchanged m v b image) v.store b image).1 with
  | true =>
    exact h.stage hactive hhandle hspec.closed hspec.disk hspec.other (hspec.image hok hb)
  | false =>
    have hsettled : ∀ x, settledView
        (Ext3.journalBlock m (unchanged m v b image) v.store b image).2 x =
        settledView v.store x := by
      intro x
      rw [settledView, settledView, hspec.closed, hspec.disk]
    refine ⟨hhandle, ?_, ?_, ?_, ?_⟩
    · exact fun hidle => absurd (hactive.symm.trans hidle) (by decide)
    · simpa only [hspec.disk] using h.cache
    · intro x hxout
      rw [view, hsettled, hspec.failed hok]
      exact h.latest x hxout
    · intro x hxout
      rw [hsettled]
      exact h.stable x hxout

theorem start (h : Coherent m t v c) (hidle : v.active = false) : Coherent m t (start v) c := by
  have hrun := h.empty hidle
  refine ⟨h.handle.startStore, fun _ => rfl, h.cache, ?_, h.stable⟩
  intro b hout
  have hview : view (startStore v.store) b = view v.store b := by
    rw [view_of_running_nil hrun]
    rfl
  exact hview ▸ h.latest b hout

theorem discard (h : Coherent m t v c) (hs : HandleInv m t s) (hrun : s.running = [])
    (hclosed : s.closed = v.store.closed) (hdisk : s.disk = v.store.disk) :
    Coherent m t { v with store := s } c.drop := by
  have hsettled : ∀ b, settledView s b = settledView v.store b := by
    intro b
    rw [settledView, settledView, hclosed, hdisk]
  refine ⟨hs, fun _ => hrun, ?_, ?_, ?_⟩
  · simpa only [hdisk] using h.cache
  · intro b hout
    rw [view_of_running_nil hrun, hsettled]
    exact h.stable b hout
  · intro b hout
    rw [hsettled]
    exact h.stable b hout

end Coherent

/-- A closed set, if there is one, fits the log, and its commit has its scratch buffers. -/
def Ready (m : Mount) (s : Store) : Prop := s.closed ≠ [] → m.scratch = true ∧ Room m s

theorem commitClosed_ok {t : Journal} (h : HandleInv m t s)
    (hready : Ready m s) : (commitClosed m s.journal s.closed s.disk).ok = true := by
  by_cases hne : s.closed = []
  · rw [hne]
    rfl
  · obtain ⟨hs, hroom⟩ := hready hne
    exact (h.fits_of_room hroom hne).2 hs

/-- A commit that goes through brings every closed image home. -/
theorem commitStore_disk (hok : (commitStore m s).1 = true) (hnd : (s.closed.map Prod.fst).Nodup)
    (hout : OutsideLog m s.journal.journalBlocks b) :
    (commitStore m s).2.disk b = settledView s b := by
  by_cases hne : s.closed = []
  · have hcommit : commitClosed m s.journal [] s.disk = ⟨true, [], s.journal⟩ := rfl
    simp [commitStore, settledView, hne, hcommit]
  obtain ⟨hmap, h0, -⟩ := commitClosed_stages hne hok
  have hzero : b ≠ m.journalMap 0 := (hout 0 h0).symm
  have hlog : ∀ w ∈ onDevice m (logRecords s.journal (tagCapacity m s.journal.is64) s.closed),
      w.1 ≠ b := by
    intro w hw
    obtain ⟨r, hr, rfl⟩ := mem_map.mp hw
    exact hout r.1 (hmap r hr)
  simp only [commitStore]
  rw [writeAll_commitClosed hne hok, committedDisk, update_of_ne hzero,
    writeAll_eq_lookup hnd, publishedDisk, update_of_ne hzero,
    writeAll_other hlog, settledView]

theorem merge_of_nil (got : ℕ → Bool) (hrun : v.store.running = []) :
    merge m got v = (true, v) := by
  have hcap := (tagCapacity_pos m v.store.journal.is64).ne'
  simp [merge, mustFlush, mergeRunning, hcap, hrun]

theorem merge_of_fits (got : ℕ → Bool) (hrun : v.store.running ≠ [])
    (hmust : mustFlush m v.store = false) : merge m got v = (true, { v with store := { v.store with
      closed := mergeEntries v.store.closed v.store.running, running := [] } }) := by
  have hcap := (tagCapacity_pos m v.store.journal.is64).ne'
  have hle : ¬ journalSegMax * tagCapacity m v.store.journal.is64 <
      v.store.closed.length + v.store.running.length := by
    simpa [mustFlush, hrun] using hmust
  simp [merge, hmust, mergeRunning, hcap, hrun, hle]

theorem settledView_mergeEntries (hnd : (s.running.map Prod.fst).Nodup) (b : ℕ) :
    settledView { s with closed := mergeEntries s.closed s.running, running := [] } b =
      view s b := by
  rw [settledView, lookup_mergeEntries hnd, view]
  cases lookup s.running b with
  | none => rfl
  | some image => rfl

namespace Coherent

variable {t : Journal} {c : Content}

section

variable (h : Coherent m t v c)
include h

theorem commit (got : ℕ → Bool) (hready : Ready m v.store) : Coherent m t (commit m got v).2 c := by
  have hsettled : ∀ b, OutsideLog m t.journalBlocks b →
      settledView (commitStore m v.store).2 b = settledView v.store b := by
    intro b hout
    rw [← h.handle.blocks] at hout
    rw [← commitStore_disk (commitClosed_ok h.handle hready) h.handle.closed.nodup hout]
    rfl
  refine ⟨h.handle.commitStore, h.empty, h.cache.putBlocks, ?_, ?_⟩
  · intro b hout
    have hview : view (commitStore m v.store).2 b = view v.store b := by
      rw [view, hsettled b hout]
      rfl
    exact hview ▸ h.latest b hout
  · intro b hout
    exact hsettled b hout ▸ h.stable b hout

theorem mergeInto (hs : HandleInv m t { v.store with
      closed := mergeEntries v.store.closed v.store.running, running := [] }) :
    Coherent m t { v with store := { v.store with
      closed := mergeEntries v.store.closed v.store.running, running := [] } } c.close := by
  have hsettled := settledView_mergeEntries h.handle.running.nodup
  refine ⟨hs, fun _ => rfl, h.cache, ?_, ?_⟩
  · intro b hout
    rw [view_of_running_nil rfl, hsettled]
    exact h.latest b hout
  · intro b hout
    rw [hsettled]
    exact h.latest b hout

theorem merge (got : ℕ → Bool) (hready : mustFlush m v.store = true → Ready m v.store) :
    (merge m got v).1 = true ∧ Coherent m t (merge m got v).2 c.close := by
  by_cases hrun : v.store.running = []
  · rw [merge_of_nil got hrun]
    refine ⟨rfl, h.handle, h.empty, h.cache, h.latest, ?_⟩
    intro b hout
    exact view_of_running_nil hrun b ▸ h.latest b hout
  have hhandle := h.handle.mergeRunning
  cases hflush : mustFlush m v.store with
  | false =>
    have hmerge := merge_of_fits got hrun hflush
    have hstore : (mergeRunning m v.store).2 = { v.store with
        closed := mergeEntries v.store.closed v.store.running, running := [] } :=
      congrArg (fun r => r.2.store) hmerge
    rw [hstore] at hhandle
    rw [hmerge]
    exact ⟨rfl, h.mergeInto hhandle⟩
  | true =>
    have hcap := (tagCapacity_pos m v.store.journal.is64).ne'
    have hlt : journalSegMax * tagCapacity m v.store.journal.is64 <
        v.store.closed.length + v.store.running.length := by
      simpa [mustFlush, hrun] using hflush
    have hok := commitClosed_ok h.handle (hready hflush)
    have hmerge : mergeRunning m v.store = (true, { (commitStore m v.store).2 with
        closed := mergeEntries [] v.store.running, running := [] }) := by
      simp [mergeRunning, hcap, hrun, hlt, hok, commitStore]
    rw [hmerge] at hhandle
    have hinto := (h.commit got (hready hflush)).mergeInto hhandle
    rw [Ext2.merge, hmerge, hflush]
    exact ⟨rfl, hinto⟩

theorem closeHandle (got : ℕ → Bool) (flushed : Bool)
    (hready : v.store.ioFailed = false → flushed = true → mustFlush m v.store = true →
      Ready m v.store) :
    Coherent m t (closeHandle m got flushed v).2
      (if (closeHandle m got flushed v).1 then c.close else c.drop) := by
  rw [Ext2.closeHandle]
  split
  · exact h.discard h.handle.discardRunning rfl rfl rfl
  rename_i hgood
  simp only [Bool.or_eq_true, Bool.not_eq_true', not_or, Bool.not_eq_true, Bool.not_eq_false]
    at hgood
  obtain ⟨hok, hmerge⟩ := h.merge got (hready hgood.1 hgood.2)
  simp only [hok]
  exact hmerge

/-- The commit may be left to a later handle. -/
theorem settle (got : ℕ → Bool) (waiters fresh : Bool)
    (hrun : v.store.running = [])
    (hready : shouldDefer m waiters fresh v.store = false → Ready m v.store) :
    Coherent m t (settle m got waiters fresh v).2 c := by
  rw [Ext2.settle]
  split
  · exact { h with empty := fun _ => hrun }
  split
  · exact { h with handle := { h.handle with }, empty := fun _ => hrun }
  · rename_i hdefer
    have hcommit := h.commit got (hready (Bool.eq_false_of_not_eq_true hdefer))
    exact { hcommit with empty := fun _ => hrun }

theorem abort : Coherent m t { v with store := abortStore v.store, active := false } c.drop := by
  have hdrop := h.discard (s := abortStore v.store) { h.handle.discardRunning with } rfl rfl rfl
  exact { hdrop with empty := fun _ => rfl }

end

end Coherent

end AvoryOS.Ext2
