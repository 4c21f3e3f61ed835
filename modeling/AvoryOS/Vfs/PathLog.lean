import AvoryOS.Vfs.Path

/-!
# The invalidation log of the path cache

The path cache maps a directory and a path to the vnode a walk has found.  A removal does
not search the cache: it appends the removed name to a ring of `32` records, and numbers
the record.  An entry carries the number of the newest record it was compared with, its
stamp; a lookup compares the path with the records since, and moves the stamp.

A step is an access to shared memory.  A lookup reads an entry between two reads of the
bucket's sequence counter, which is odd while an entry is rewritten.  What it reads while
the counter is not the one it began with is arbitrary here, so that all those reads are one
step (`scan`), and the rewriting of an entry is one step; the stamp has steps of its own,
since it is written outside the counter.  In the same way the comparison with the name of a
record is arbitrary if the record has been taken for another one.  What happens under the
lock of the log is one step where it reads only.

Counters are natural numbers.  The code has `32` bits for that of a bucket, so a lookup during
which a bucket is rewritten `2 ^ 31` times is left out, and `64` for the records.  `hist`,
`appended`, `busy` and the fields `resolved` and `since` are not part of the code: the names
of all records, the number of complete records, the entry that is being rewritten, and how
many records were complete when a vnode was found and when a lookup began.
-/

namespace AvoryOS.Vfs.PathLog

open Function Option Nat

abbrev Thread := ℕ

/-- `VFS_PATH_INVAL_LOG_SIZE`. -/
def logSize : ℕ := 32

/-- `vfs_path_hash`.  A vnode is given by its address. -/
def pathHash (dir : Node) (path : Name) : UInt32 :=
  let hash : UInt64 := path.foldl (fun h c => (h ^^^ c.toUInt64) * 0x100000001b3)
    ((UInt64.ofNat dir >>> 4) ^^^ 0xcbf29ce484222325)
  (hash ^^^ (hash >>> 32)).toUInt32

/-- The bucket of a path.  `vfs_path_scan_and_hash` stops after `255` bytes. -/
def bucketOf (dir : Node) (path : Name) : ℕ := (pathHash dir (path.take 255) &&& 1023).toNat

structure Record where
  gen : ℕ
  name : Name

/-- What the sequence counter protects. -/
structure Content where
  dir : Node
  path : Name
  node : Node
  resolved : ℕ
  deriving DecidableEq

structure Slot where
  content : Content
  valid : Bool
  gen : ℕ

/-- What is looked for, and in which bucket. -/
structure Query where
  bucket : ℕ
  dir : Node
  path : Name
  since : ℕ

/-- A path is compared up to the length `vfs_path_scan_and_hash` has counted. -/
def Query.Fits (q : Query) (c : Content) : Prop := c.dir = q.dir ∧ c.path = q.path.take 255

instance (q : Query) (c : Content) : Decidable (q.Fits c) :=
  inferInstanceAs (Decidable (_ ∧ _))

structure Shared where
  gen : ℕ
  log : ℕ → Record
  logLock : Option Thread
  seq : ℕ → ℕ
  lock : ℕ → Option Thread
  victim : ℕ → Fin 4
  slots : ℕ → Fin 4 → Slot
  hist : ℕ → Name
  appended : ℕ
  busy : ℕ → Option (Fin 4)

/-- Where a thread is.  `s` is the sequence counter it began with, `e` a stamp, `cur` the number
of the newest record. -/
inductive Pc
  | idle
  -- `vfs_path_cache_lookup_fast`
  | seq (q : Query) (attempt : ℕ)
  | scan (q : Query) (attempt s : ℕ)
  | loadGen (q : Query) (attempt s : ℕ) (i : Fin 4) (c : Content)
  | recheck (q : Query) (attempt s : ℕ) (hit : Option (Fin 4 × Content × ℕ))
  | loadCur (q : Query) (s : ℕ) (i : Fin 4) (c : Content) (e : ℕ)
  -- `vfs_path_entry_validate_fast`, at record `g`
  | gen1 (q : Query) (s : ℕ) (i : Fin 4) (c : Content) (cur g : ℕ)
  | gen2 (q : Query) (s : ℕ) (i : Fin 4) (c : Content) (cur g : ℕ)
  | compare (q : Query) (s : ℕ) (i : Fin 4) (c : Content) (cur g : ℕ)
  | stamp (q : Query) (s : ℕ) (i : Fin 4) (c : Content) (cur : ℕ)
  | tryref (q : Query) (c : Content)
  | returned (q : Query) (c : Content)
  -- `vfs_path_cache_lookup_locked` and `vfs_path_entry_validate_locked`
  | lock (q : Query)
  | find (q : Query)
  | loadLocked (q : Query) (i : Fin 4) (c : Content)
  | equal (q : Query) (i : Fin 4) (c : Content) (cur : ℕ)
  | replay (q : Query) (i : Fin 4) (c : Content) (cur : ℕ)
  | restamp (q : Query) (i : Fin 4) (c : Content) (cur : ℕ)
  | hit (q : Query) (c : Content)
  | retire (q : Query) (i : Fin 4)
  | retired (q : Query)
  -- `vfs_path_cache_insert`
  | insert (q : Query) (c : Content)
  | choose (q : Query) (c : Content)
  | stampLoad (q : Query) (i : Fin 4) (c : Content)
  | stampStore (q : Query) (i : Fin 4) (c : Content) (cur : ℕ)
  | close (q : Query) (i : Fin 4) (c : Content) (cur : ℕ)
  -- `vfs_path_invalidate_record`
  | record (name : Name)
  | bump (name : Name)
  | clear (g : ℕ) (name : Name)
  | write (g : ℕ) (name : Name)
  | publish (g : ℕ) (name : Name)
  | unlock (g : ℕ)

inductive Act
  | startLookup (dir : Node) (path : Name)
  | startInsert (dir : Node) (path : Name) (node : Node)
  | startRecord (name : Name)
  | go
  | scan (hit : Option (Fin 4 × Content))
  | way (i : Fin 4)
  | miss
  | outcome (b : Bool)

namespace Shared

def setSlot (σ : Shared) (b : ℕ) (i : Fin 4) (x : Slot) : Shared :=
  { σ with slots := update σ.slots b (update (σ.slots b) i x) }

def setGen (σ : Shared) (b : ℕ) (i : Fin 4) (g : ℕ) : Shared :=
  σ.setSlot b i { σ.slots b i with gen := g }

def setLog (σ : Shared) (k : ℕ) (r : Record) : Shared :=
  { σ with log := update σ.log k r }

def setLock (σ : Shared) (b : ℕ) (o : Option Thread) : Shared :=
  { σ with lock := update σ.lock b o }

def bumpSeq (σ : Shared) (b : ℕ) (busy : Option (Fin 4)) : Shared :=
  { σ with
    seq := update σ.seq b (σ.seq b + 1)
    busy := update σ.busy b busy }

/-- The entry is there, and it is that of the query. -/
def Has (σ : Shared) (q : Query) (i : Fin 4) : Prop :=
  (σ.slots q.bucket i).valid = true ∧ q.Fits (σ.slots q.bucket i).content

instance (σ : Shared) (q : Query) (i : Fin 4) : Decidable (σ.Has q i) :=
  inferInstanceAs (Decidable (_ ∧ _))

/-- The first entry that is not valid, or the next victim. -/
def way (σ : Shared) (b : ℕ) : Fin 4 :=
  ((List.finRange 4).find? fun i => !(σ.slots b i).valid).getD (σ.victim b)

/-- The next victim moves on if every entry is valid. -/
def advance (σ : Shared) (b : ℕ) : Shared :=
  if ∀ i, (σ.slots b i).valid = true then
    { σ with victim := update σ.victim b (σ.victim b + 1) }
  else σ

/-- Records `e + 1` to `cur` are there, and none has a component of the path for its name. -/
def replays (σ : Shared) (path : Name) (e cur : ℕ) : Bool :=
  (List.range' (e + 1) (cur - e)).all fun g =>
    (σ.log (g % logSize)).gen == g && !componentMatch path (σ.log (g % logSize)).name

end Shared

/-- The next attempt of the lookup without the lock, or the one with it. -/
def again (q : Query) (attempt : ℕ) : Pc := if attempt = 0 then .seq q 1 else .lock q

def step (σ : Shared) (t : Thread) : Pc → Act → Option (Shared × Pc)
  | .idle, .startLookup dir path =>
    some (σ, .seq ⟨bucketOf dir path, dir, path, σ.appended⟩ 0)
  | .idle, .startInsert dir path node =>
    if path.length < 256 then
      some (σ, .insert ⟨bucketOf dir path, dir, path, σ.appended⟩ ⟨dir, path, node, σ.appended⟩)
    else none
  | .idle, .startRecord name =>
    if name ≠ [] ∧ name.length < 256 then some (σ, .record name) else none
  | .seq q a, .go =>
    if σ.seq q.bucket % 2 = 1 then some (σ, again q a) else some (σ, .scan q a (σ.seq q.bucket))
  | .scan q a s, .scan none => some (σ, .recheck q a s none)
  | .scan q a s, .scan (some (i, c)) =>
    if σ.seq q.bucket = s → σ.Has q i ∧ (σ.slots q.bucket i).content = c then
      some (σ, .loadGen q a s i c)
    else none
  | .loadGen q a s i c, .go => some (σ, .recheck q a s (some (i, c, (σ.slots q.bucket i).gen)))
  | .recheck q a s o, .go =>
    if σ.seq q.bucket ≠ s then some (σ, again q a)
    else match o with
      | none => some (σ, .idle)
      | some (i, c, e) => some (σ, .loadCur q s i c e)
  | .loadCur q s i c e, .go =>
    if e = σ.gen then some (σ, .tryref q c)
    else if e > σ.gen ∨ σ.gen - e > logSize then some (σ, .lock q)
    else some (σ, .gen1 q s i c σ.gen (e + 1))
  | .gen1 q s i c cur g, .go =>
    if (σ.log (g % logSize)).gen ≠ g then some (σ, .lock q) else some (σ, .gen2 q s i c cur g)
  | .gen2 q s i c cur g, .go =>
    if (σ.log (g % logSize)).gen ≠ g then some (σ, .lock q) else some (σ, .compare q s i c cur g)
  | .compare q s i c cur g, .outcome b =>
    if (σ.log (g % logSize)).gen = g →
        b = componentMatch q.path (σ.log (g % logSize)).name then
      if b then some (σ, .lock q)
      else if g < cur then some (σ, .gen1 q s i c cur (g + 1))
      else some (σ, .stamp q s i c cur)
    else none
  | .stamp q _ i c cur, .go => some (σ.setGen q.bucket i cur, .tryref q c)
  | .tryref q c, .outcome b => some (σ, if b then .returned q c else .lock q)
  | .returned _ _, .go => some (σ, .idle)
  | .lock q, .go =>
    if 256 ≤ q.path.length then some (σ, .idle)
    else if σ.lock q.bucket = none then some (σ.setLock q.bucket (some t), .find q)
    else none
  | .find q, .way i =>
    if σ.Has q i then some (σ, .loadLocked q i (σ.slots q.bucket i).content) else none
  | .find q, .miss =>
    if ∀ i, ¬σ.Has q i then some (σ.setLock q.bucket none, .idle) else none
  | .loadLocked q i c, .go => some (σ, .equal q i c σ.gen)
  -- the stamp is read again for each comparison, and may move in between
  | .equal q i c cur, .outcome tooOld =>
    if (σ.slots q.bucket i).gen = cur then some (σ, .hit q c)
    else some (σ, if tooOld then .retire q i else .replay q i c cur)
  | .replay q i c cur, .go =>
    if σ.logLock = none then
      some (σ, if σ.replays c.path (σ.slots q.bucket i).gen cur then .restamp q i c cur
        else .retire q i)
    else none
  | .restamp q i c cur, .go => some (σ.setGen q.bucket i cur, .hit q c)
  | .hit q c, .go => some (σ.setLock q.bucket none, .returned q c)
  | .retire q i, .go =>
    some ((σ.setSlot q.bucket i { σ.slots q.bucket i with valid := false }).bumpSeq q.bucket
      (some i), .retired q)
  | .retired q, .go => some ((σ.bumpSeq q.bucket none).setLock q.bucket none, .idle)
  | .insert q c, .go =>
    if σ.lock q.bucket = none then some (σ.setLock q.bucket (some t), .choose q c) else none
  | .choose q c, .go =>
    -- an entry that is there already stays
    if ∃ i, σ.Has q i then some (σ.setLock q.bucket none, .idle)
    else
      let i := σ.way q.bucket
      some (((σ.advance q.bucket).setSlot q.bucket i
        { σ.slots q.bucket i with content := c }).bumpSeq q.bucket (some i), .stampLoad q i c)
  | .stampLoad q i c, .go => some (σ, .stampStore q i c σ.gen)
  | .stampStore q i c cur, .go => some (σ.setGen q.bucket i cur, .close q i c cur)
  | .close q i _ _, .go =>
    some (((σ.setSlot q.bucket i { σ.slots q.bucket i with valid := true }).bumpSeq q.bucket
      none).setLock q.bucket none, .idle)
  | .record name, .go =>
    if σ.logLock = none then some ({ σ with logLock := some t }, .bump name) else none
  | .bump name, .go =>
    some ({ σ with gen := σ.gen + 1, hist := update σ.hist (σ.gen + 1) name },
      .clear (σ.gen + 1) name)
  | .clear g name, .go =>
    some (σ.setLog (g % logSize) { σ.log (g % logSize) with gen := 0 }, .write g name)
  | .write g name, .go => some (σ.setLog (g % logSize) ⟨0, name⟩, .publish g name)
  | .publish g name, .go => some (σ.setLog (g % logSize) ⟨g, name⟩, .unlock g)
  | .unlock g, .go => some ({ σ with logLock := none, appended := g }, .idle)
  | _, _ => none

/-! ## The invariant -/

/-- No record after the vnode was found, up to `e`, has a component of the path for its name. -/
def SoundUpTo (hist : ℕ → Name) (c : Content) (e : ℕ) : Prop :=
  ∀ g, c.resolved < g → g ≤ e → ¬IsComponent (hist g) c.path

structure Global (σ : Shared) : Prop where
  ring : ∀ k, (σ.log k).gen ≠ 0 → (σ.log k).gen ≤ σ.gen ∧ (σ.log k).name = σ.hist (σ.log k).gen
  names : ∀ g, 0 < g → g ≤ σ.gen → σ.hist g ≠ []
  appended_le : σ.appended ≤ σ.gen
  /-- The counter is odd while an entry is rewritten. -/
  parity : ∀ b, σ.busy b = none ↔ σ.seq b % 2 = 0
  unlocked : ∀ b, σ.lock b = none → σ.busy b = none
  /-- The stamp of every other entry is right. -/
  stamps : ∀ b i, (σ.slots b i).valid = true → σ.busy b ≠ some i →
    SoundUpTo σ.hist (σ.slots b i).content (σ.slots b i).gen ∧ (σ.slots b i).gen ≤ σ.gen

/-- What a lookup has read is there if the counter has not moved. -/
structure HasRead (σ : Shared) (q : Query) (s : ℕ) (i : Fin 4) (c : Content) : Prop where
  even : s % 2 = 0
  le : s ≤ σ.seq q.bucket
  same : σ.seq q.bucket = s → σ.Has q i ∧ (σ.slots q.bucket i).content = c

/-- What a thread with the lock of a bucket has found. -/
structure HasFound (σ : Shared) (t : Thread) (q : Query) (i : Fin 4) (c : Content) : Prop where
  lock : σ.lock q.bucket = some t
  idle : σ.busy q.bucket = none
  has : σ.Has q i
  content : (σ.slots q.bucket i).content = c

/-- What a thread that rewrites an entry has done. -/
structure Rewrites (σ : Shared) (t : Thread) (q : Query) (i : Fin 4) (c : Content) : Prop where
  lock : σ.lock q.bucket = some t
  busy : σ.busy q.bucket = some i
  content : (σ.slots q.bucket i).content = c

/-- What a thread that appends a record has done. -/
structure Appends (σ : Shared) (t : Thread) (g : ℕ) (name : Name) : Prop where
  lock : σ.logLock = some t
  pos : 0 < g
  le : g ≤ σ.gen
  newer : σ.appended ≤ g
  hist : σ.hist g = name

/-- What a thread knows of the shared memory. -/
def Pc.Ok (σ : Shared) (t : Thread) : Pc → Prop
  | .idle | .insert _ _ => True
  | .seq q _ | .lock q => q.since ≤ σ.appended
  | .scan q _ s => q.since ≤ σ.appended ∧ s % 2 = 0 ∧ s ≤ σ.seq q.bucket
  | .loadGen q _ s i c => q.since ≤ σ.appended ∧ HasRead σ q s i c
  | .recheck q _ s o => q.since ≤ σ.appended ∧ ∀ i c e, o = some (i, c, e) →
      HasRead σ q s i c ∧ (σ.seq q.bucket = s → SoundUpTo σ.hist c e ∧ e ≤ σ.gen)
  | .loadCur q s i c e =>
    q.since ≤ σ.appended ∧ HasRead σ q s i c ∧ q.Fits c ∧ SoundUpTo σ.hist c e ∧ e ≤ σ.gen
  | .gen1 q s i c cur g | .gen2 q s i c cur g | .compare q s i c cur g =>
    q.since ≤ σ.appended ∧ HasRead σ q s i c ∧ q.Fits c ∧ (q.since ≤ cur ∧ cur ≤ σ.gen) ∧
      0 < g ∧ g ≤ cur ∧ SoundUpTo σ.hist c (g - 1)
  | .stamp q s i c cur =>
    q.since ≤ σ.appended ∧ HasRead σ q s i c ∧ (q.since ≤ cur ∧ cur ≤ σ.gen) ∧
      SoundUpTo σ.hist c cur
  | .tryref q c | .returned q c => q.since ≤ σ.appended ∧ SoundUpTo σ.hist c q.since
  | .find q => q.since ≤ σ.appended ∧ σ.lock q.bucket = some t ∧ σ.busy q.bucket = none
  | .loadLocked q i c => q.since ≤ σ.appended ∧ HasFound σ t q i c
  | .equal q i c cur | .replay q i c cur =>
    q.since ≤ σ.appended ∧ HasFound σ t q i c ∧ q.since ≤ cur ∧ cur ≤ σ.gen
  | .restamp q i c cur =>
    q.since ≤ σ.appended ∧ HasFound σ t q i c ∧ (q.since ≤ cur ∧ cur ≤ σ.gen) ∧
      SoundUpTo σ.hist c cur
  | .hit q c =>
    q.since ≤ σ.appended ∧ σ.lock q.bucket = some t ∧ σ.busy q.bucket = none ∧
      SoundUpTo σ.hist c q.since
  | .retire q _ | .choose q _ => σ.lock q.bucket = some t ∧ σ.busy q.bucket = none
  | .retired q => σ.lock q.bucket = some t ∧ ∃ i, σ.busy q.bucket = some i ∧
      (σ.slots q.bucket i).valid = false
  | .stampLoad q i c => Rewrites σ t q i c
  | .stampStore q i c cur => Rewrites σ t q i c ∧ cur ≤ c.resolved ∧ cur ≤ σ.gen
  | .close q i c cur =>
    Rewrites σ t q i c ∧ cur ≤ c.resolved ∧ cur ≤ σ.gen ∧ (σ.slots q.bucket i).gen = cur
  | .record name => name ≠ []
  | .bump name => σ.logLock = some t ∧ name ≠ []
  | .clear g name => Appends σ t g name
  | .write g name => Appends σ t g name ∧ (σ.log (g % logSize)).gen = 0
  | .publish g name => Appends σ t g name ∧ σ.log (g % logSize) = ⟨0, name⟩
  | .unlock g => σ.logLock = some t ∧ g ≤ σ.gen ∧ σ.appended ≤ g

/-- What the steps of other threads leave alone. -/
structure Quiet (t : Thread) (σ σ' : Shared) : Prop where
  gen : σ.gen ≤ σ'.gen
  appended : σ.appended ≤ σ'.appended
  hist : ∀ g, g ≤ σ.gen → σ'.hist g = σ.hist g
  seq : ∀ b, σ.seq b ≤ σ'.seq b
  contents : ∀ b, σ'.seq b = σ.seq b → ∀ i, (σ'.slots b i).content = (σ.slots b i).content ∧
    (σ'.slots b i).valid = (σ.slots b i).valid
  lock : ∀ b, σ.lock b = some t → σ'.lock b = some t ∧ σ'.seq b = σ.seq b ∧
    σ'.busy b = σ.busy b ∧ (σ.busy b ≠ none → σ'.slots b = σ.slots b)
  log : σ.logLock = some t → σ'.logLock = some t ∧ σ'.log = σ.log ∧ σ'.appended = σ.appended

variable {σ σ' : Shared} {t : Thread} {q : Query} {i : Fin 4} {c : Content} {s e cur g : ℕ}

theorem Quiet.refl (t : Thread) (σ : Shared) : Quiet t σ σ :=
  ⟨le_rfl, le_rfl, fun _ _ => rfl, fun _ => le_rfl, fun _ _ _ => ⟨rfl, rfl⟩,
    fun _ h => ⟨h, rfl, rfl, fun _ => rfl⟩, fun h => ⟨h, rfl, rfl⟩⟩

theorem Quiet.trans {σ'' : Shared} (h : Quiet t σ σ') (h' : Quiet t σ' σ'') : Quiet t σ σ'' := by
  refine ⟨h.gen.trans h'.gen, h.appended.trans h'.appended,
    fun g hg => (h'.hist g (hg.trans h.gen)).trans (h.hist g hg),
    fun b => (h.seq b).trans (h'.seq b), fun b hs i => ?_, fun b hl => ?_, fun hl => ?_⟩
  · have hs' : σ'.seq b = σ.seq b := le_antisymm (hs ▸ h'.seq b) (h.seq b)
    obtain ⟨h1, h2⟩ := h.contents b hs' i
    obtain ⟨h1', h2'⟩ := h'.contents b (hs.trans hs'.symm) i
    exact ⟨h1'.trans h1, h2'.trans h2⟩
  · obtain ⟨hl1, hs1, hb1, hd1⟩ := h.lock b hl
    obtain ⟨hl2, hs2, hb2, hd2⟩ := h'.lock b hl1
    exact ⟨hl2, hs2.trans hs1, hb2.trans hb1, fun hn => (hd2 (hb1 ▸ hn)).trans (hd1 hn)⟩
  · obtain ⟨hl1, hs1, hb1⟩ := h.log hl
    obtain ⟨hl2, hs2, hb2⟩ := h'.log hl1
    exact ⟨hl2, hs2.trans hs1, hb2.trans hb1⟩

theorem SoundUpTo.quiet (h : Quiet t σ σ') (he : e ≤ σ.gen) (hs : SoundUpTo σ.hist c e) :
    SoundUpTo σ'.hist c e := by
  intro g h1 h2
  rw [h.hist g (h2.trans he)]
  exact hs g h1 h2

theorem Shared.has_congr (hc : (σ'.slots q.bucket i).content = (σ.slots q.bucket i).content)
    (hv : (σ'.slots q.bucket i).valid = (σ.slots q.bucket i).valid) (h : σ.Has q i) :
    σ'.Has q i := by
  rw [Shared.Has, hc, hv]
  exact h

open Shared

section

variable (h : Quiet t σ σ')
include h

theorem HasRead.quiet (hr : HasRead σ q s i c) : HasRead σ' q s i c := by
  refine ⟨hr.even, hr.le.trans (h.seq _), fun he => ?_⟩
  have hseq : σ.seq q.bucket = s := le_antisymm (he ▸ h.seq _) hr.le
  obtain ⟨hc, hv⟩ := h.contents q.bucket (he.trans hseq.symm) i
  obtain ⟨hh, hcc⟩ := hr.same hseq
  exact ⟨has_congr hc hv hh, hc.trans hcc⟩

theorem HasFound.quiet (hf : HasFound σ t q i c) : HasFound σ' t q i c := by
  obtain ⟨hl, hs, hb, -⟩ := h.lock q.bucket hf.lock
  obtain ⟨hc, hv⟩ := h.contents q.bucket hs i
  exact ⟨hl, hb.trans hf.idle, has_congr hc hv hf.has, hc.trans hf.content⟩

theorem Rewrites.quiet (hr : Rewrites σ t q i c) :
    Rewrites σ' t q i c ∧ σ'.slots q.bucket = σ.slots q.bucket := by
  obtain ⟨hl, hs, hb, hsl⟩ := h.lock q.bucket hr.lock
  have hslots := hsl (by rw [hr.busy]; simp)
  exact ⟨⟨hl, hb.trans hr.busy, by rw [hslots]; exact hr.content⟩, hslots⟩

theorem Appends.quiet {name : Name} (ha : Appends σ t g name) :
    Appends σ' t g name ∧ σ'.log = σ.log := by
  obtain ⟨hl, hlog, hap⟩ := h.log ha.lock
  exact ⟨⟨hl, ha.pos, ha.le.trans h.gen, hap ▸ ha.newer, (h.hist g ha.le).trans ha.hist⟩, hlog⟩

/-- What a thread knows stays true while others move. -/
theorem Pc.Ok.quiet {pc : Pc} (hg : Global σ) (ho : pc.Ok σ t) : pc.Ok σ' t := by
  have hsince : ∀ q : Query, q.since ≤ σ.appended → q.since ≤ σ'.appended := fun q hq =>
    hq.trans h.appended
  have hle : ∀ q : Query, q.since ≤ σ.appended → q.since ≤ σ.gen := fun q hq =>
    hq.trans hg.appended_le
  cases pc with
  | idle | insert | record => exact ho
  | seq q a | lock q => exact hsince q ho
  | scan q a s => exact ⟨hsince q ho.1, ho.2.1, ho.2.2.trans (h.seq _)⟩
  | loadGen q a s i c => exact ⟨hsince q ho.1, ho.2.quiet h⟩
  | recheck q a s o =>
    refine ⟨hsince q ho.1, fun i c e he => ?_⟩
    obtain ⟨hr, hs⟩ := ho.2 i c e he
    refine ⟨hr.quiet h, fun hseq => ?_⟩
    obtain ⟨h1, h2⟩ := hs (le_antisymm (hseq ▸ h.seq _) hr.le)
    exact ⟨h1.quiet h h2, h2.trans h.gen⟩
  | loadCur q s i c e =>
    obtain ⟨h1, h2, h3, h4, h5⟩ := ho
    exact ⟨hsince q h1, h2.quiet h, h3, h4.quiet h h5, h5.trans h.gen⟩
  | gen1 q s i c cur g | gen2 q s i c cur g | compare q s i c cur g =>
    obtain ⟨h1, h2, h3, ⟨h4, h5⟩, h6, h7, h8⟩ := ho
    exact ⟨hsince q h1, h2.quiet h, h3, ⟨h4, h5.trans h.gen⟩, h6, h7, h8.quiet h (by omega)⟩
  | stamp q s i c cur =>
    obtain ⟨h1, h2, ⟨h3, h4⟩, h5⟩ := ho
    exact ⟨hsince q h1, h2.quiet h, ⟨h3, h4.trans h.gen⟩, h5.quiet h h4⟩
  | tryref q c | returned q c => exact ⟨hsince q ho.1, ho.2.quiet h (hle q ho.1)⟩
  | find q =>
    obtain ⟨hl, -, hb, -⟩ := h.lock q.bucket ho.2.1
    exact ⟨hsince q ho.1, hl, hb.trans ho.2.2⟩
  | loadLocked q i c => exact ⟨hsince q ho.1, ho.2.quiet h⟩
  | equal q i c cur | replay q i c cur =>
    obtain ⟨h1, h2, h3, h4⟩ := ho
    exact ⟨hsince q h1, h2.quiet h, h3, h4.trans h.gen⟩
  | restamp q i c cur =>
    obtain ⟨h1, h2, ⟨h3, h4⟩, h5⟩ := ho
    exact ⟨hsince q h1, h2.quiet h, ⟨h3, h4.trans h.gen⟩, h5.quiet h h4⟩
  | hit q c =>
    obtain ⟨h1, h2, h3, h4⟩ := ho
    obtain ⟨hl, -, hb, -⟩ := h.lock q.bucket h2
    exact ⟨hsince q h1, hl, hb.trans h3, h4.quiet h (hle q h1)⟩
  | retire q i | choose q c =>
    obtain ⟨hl, -, hb, -⟩ := h.lock q.bucket ho.1
    exact ⟨hl, hb.trans ho.2⟩
  | retired q =>
    obtain ⟨h1, i, h2, h3⟩ := ho
    obtain ⟨hl, -, hb, hs⟩ := h.lock q.bucket h1
    exact ⟨hl, i, hb.trans h2, by rw [hs (by rw [h2]; simp)]; exact h3⟩
  | stampLoad q i c => exact (Rewrites.quiet h ho).1
  | stampStore q i c cur => exact ⟨(ho.1.quiet h).1, ho.2.1, ho.2.2.trans h.gen⟩
  | close q i c cur =>
    obtain ⟨h1, h2, h3, h4⟩ := ho
    obtain ⟨hr, hs⟩ := h1.quiet h
    exact ⟨hr, h2, h3.trans h.gen, by rw [hs]; exact h4⟩
  | bump name => exact ⟨(h.log ho.1).1, ho.2⟩
  | clear g name => exact (Appends.quiet h ho).1
  | write g name | publish g name =>
    obtain ⟨ha, hlog⟩ := ho.1.quiet h
    exact ⟨ha, by rw [hlog]; exact ho.2⟩
  | unlock g =>
    obtain ⟨h1, h2, h3⟩ := ho
    obtain ⟨hl, -, hap⟩ := h.log h1
    exact ⟨hl, h2.trans h.gen, hap ▸ h3⟩

end

/-! ## What a step does to the shared memory -/

section Effects
variable {b : ℕ} {x : Slot} {u : Thread}

theorem Shared.setSlot_slots (σ : Shared) (b b' : ℕ) (i j : Fin 4) (x : Slot) :
    (σ.setSlot b i x).slots b' j = if b' = b ∧ j = i then x else σ.slots b' j := by
  rw [setSlot]
  by_cases hb : b' = b
  · subst hb
    by_cases hj : j = i
    · subst hj
      simp
    · simp [hj]
  · simp [hb]

theorem Shared.setSlot_self (σ : Shared) (b : ℕ) (i : Fin 4) : σ.setSlot b i (σ.slots b i) = σ := by
  rw [setSlot, update_eq_self, update_eq_self]

theorem Shared.advance_lock (σ : Shared) (b : ℕ) : (σ.advance b).lock = σ.lock := by
  rw [advance]
  split
  · rfl
  · rfl

theorem Shared.advance_busy (σ : Shared) (b : ℕ) : (σ.advance b).busy = σ.busy := by
  rw [advance]
  split
  · rfl
  · rfl

theorem Global.setGen (h : Global σ) (hs : (σ.slots b i).valid = true → σ.busy b ≠ some i →
      SoundUpTo σ.hist (σ.slots b i).content g ∧ g ≤ σ.gen) : Global (σ.setGen b i g) := by
  refine { h with stamps := fun b' j hv hb => ?_ }
  rw [Shared.setGen, setSlot_slots] at hv ⊢
  split at hv
  · next e =>
    obtain ⟨rfl, rfl⟩ := e
    rw [if_pos ⟨rfl, rfl⟩]
    exact hs hv hb
  · next e =>
    rw [if_neg e]
    exact h.stamps b' j hv hb

theorem Quiet.setGen (hb : σ.busy b = none ∨ σ.lock b ≠ some u) : Quiet u σ (σ.setGen b i g) := by
  refine { Quiet.refl u σ with contents := fun b' _ j => ?_, lock := fun b' hl => ?_ }
  · rw [Shared.setGen, setSlot_slots]
    split
    · next e =>
      obtain ⟨rfl, rfl⟩ := e
      exact ⟨rfl, rfl⟩
    · exact ⟨rfl, rfl⟩
  · refine ⟨hl, rfl, rfl, fun hbusy => ?_⟩
    have hne : b' ≠ b := by
      rintro rfl
      exact hb.elim hbusy fun h => h hl
    simp [Shared.setGen, setSlot, update_of_ne hne]

variable {o : Option Thread}

theorem Quiet.setLock (hl : σ.lock b ≠ some u) : Quiet u σ (σ.setLock b o) := by
  refine { Quiet.refl u σ with lock := fun b' h => ?_ }
  have hne : b' ≠ b := by
    rintro rfl
    exact hl h
  exact ⟨by simpa only [Shared.setLock, update_of_ne hne] using h, rfl, rfl, fun _ => rfl⟩

theorem Global.setLock (h : Global σ) (hb : σ.busy b = none) :
    Global (σ.setLock b o) := by
  refine { h with unlocked := fun b' hl => ?_ }
  by_cases e : b' = b
  · exact e ▸ hb
  · exact h.unlocked b' (by simpa only [Shared.setLock, update_of_ne e] using hl)

/-- An entry is rewritten by a thread with the lock of its bucket. -/
theorem Quiet.rewrite {o : Option (Fin 4)} (hl : σ.lock b ≠ some u) :
    Quiet u σ ((σ.setSlot b i x).bumpSeq b o) := by
  refine { Quiet.refl u σ with
    seq := fun b' => ?_, contents := fun b' hs j => ?_, lock := fun b' h => ?_ }
  · simp only [bumpSeq, setSlot]
    by_cases e : b' = b
    · rw [e, update_self]
      exact le_succ _
    · rw [update_of_ne e]
  · have hne : b' ≠ b := by
      rintro rfl
      simp [bumpSeq, setSlot] at hs
    simp [bumpSeq, setSlot, update_of_ne hne]
  have hne : b' ≠ b := by
    rintro rfl
    exact hl h
  simp only [bumpSeq, setSlot, update_of_ne hne]
  exact ⟨h, trivial, trivial, fun _ => trivial⟩

/-- An entry that is rewritten is busy from the first bump of the counter to the second. -/
theorem Global.rewrite {o : Option (Fin 4)} (h : Global σ) (hl : σ.lock b = some t)
    (hb : σ.busy b = none ∧ o = some i ∨ σ.busy b = some i ∧ o = none)
    (hx : o = none → x.valid = true → SoundUpTo σ.hist x.content x.gen ∧ x.gen ≤ σ.gen) :
    Global ((σ.setSlot b i x).bumpSeq b o) := by
  refine ⟨h.ring, h.names, h.appended_le, fun b' => ?_, fun b' hl' => ?_, fun b' j hv hn => ?_⟩
  · simp only [bumpSeq, setSlot]
    by_cases e : b' = b
    · have := h.parity b
      rw [e, update_self, update_self]
      rcases hb with ⟨hb, rfl⟩ | ⟨hb, rfl⟩ <;>
        simp only [hb, reduceCtorEq, true_iff, false_iff] at this ⊢ <;> omega
    · rw [update_of_ne e, update_of_ne e]
      exact h.parity b'
  · have e : b' ≠ b := by
      rintro rfl
      exact absurd (hl.symm.trans hl') (by simp)
    simp only [bumpSeq, update_of_ne e]
    exact h.unlocked b' hl'
  simp only [bumpSeq, setSlot_slots] at hv ⊢
  split at hv
  · next e =>
    rw [if_pos e]
    refine hx (hb.elim (fun hb => ?_) And.right) hv
    simp [bumpSeq, e, hb.2] at hn
  next e =>
  rw [if_neg e]
  refine h.stamps b' j hv fun hbusy => ?_
  by_cases eb : b' = b
  · subst eb
    rcases hb with ⟨hb, -⟩ | ⟨hb, -⟩ <;> rw [hb] at hbusy
    · cases hbusy
    · exact e ⟨rfl, (some.inj hbusy).symm⟩
  · exact hn (by simpa [bumpSeq, setSlot, update_of_ne eb] using hbusy)

theorem Global.advance (h : Global σ) : Global (σ.advance b) := by
  rw [Shared.advance]
  split
  · exact { h with }
  · exact h

theorem Quiet.advance : Quiet u σ (σ.advance b) := by
  rw [Shared.advance]
  split
  · exact { Quiet.refl u σ with }
  · exact Quiet.refl u σ

variable {r : Record}

theorem Global.setLog (h : Global σ) {k : ℕ}
    (hr : r.gen ≠ 0 → r.gen ≤ σ.gen ∧ r.name = σ.hist r.gen) : Global (σ.setLog k r) := by
  refine { h with ring := fun k' hk => ?_ }
  by_cases e : k' = k
  · subst e
    simp only [Shared.setLog, update_self] at hk ⊢
    exact hr hk
  · simp only [Shared.setLog, update_of_ne e] at hk ⊢
    exact h.ring k' hk

theorem Quiet.setLog {k : ℕ} (hl : σ.logLock ≠ some u) : Quiet u σ (σ.setLog k r) :=
  { Quiet.refl u σ with log := fun h => absurd h hl }

variable {name : Name}

theorem Global.bump (h : Global σ) (hn : name ≠ []) :
    Global { σ with gen := σ.gen + 1, hist := update σ.hist (σ.gen + 1) name } := by
  have hold : ∀ g, g ≤ σ.gen → update σ.hist (σ.gen + 1) name g = σ.hist g := fun g hg =>
    update_of_ne (by omega) _ _
  refine ⟨fun k hk => ?_, fun g h0 hg => ?_, h.appended_le.trans (le_succ _), h.parity,
    h.unlocked, fun b i hv hb => ?_⟩
  · obtain ⟨h1, h2⟩ := h.ring k hk
    exact ⟨h1.trans (le_succ _), by simp only [hold _ h1]; exact h2⟩
  · by_cases e : g = σ.gen + 1
    · simp only [e, update_self]
      exact hn
    have hle : g ≤ σ.gen := le_of_lt_succ (lt_of_le_of_ne hg e)
    simp only [hold g hle]
    exact h.names g h0 hle
  · obtain ⟨h1, h2⟩ := h.stamps b i hv hb
    refine ⟨fun g hg1 hg2 => ?_, h2.trans (le_succ _)⟩
    simp only [hold g (hg2.trans h2)]
    exact h1 g hg1 hg2

theorem Quiet.bump : Quiet u σ
    { σ with gen := σ.gen + 1, hist := update σ.hist (σ.gen + 1) name } :=
  { Quiet.refl u σ with
    gen := le_succ _
    hist := fun _ hg => update_of_ne (by omega) _ _ }

theorem Quiet.setLogLock {n : ℕ} (hl : σ.logLock ≠ some u)
    (hn : σ.appended ≤ n) : Quiet u σ { σ with logLock := o, appended := n } :=
  { Quiet.refl u σ with
    appended := hn
    log := fun h => absurd h hl }

end Effects

/-- Conditions on a step of a thread: a record is not taken for another while a path is compared
with its name, and the path is not cut; an entry has not been rewritten when a lookup moves its
stamp; and no record has been begun since the vnode of a new entry was found. -/
def Careful (σ : Shared) : Pc → Prop
  | .compare q _ _ _ _ g => (σ.log (g % logSize)).gen = g ∧ q.path.length < 256
  | .stamp q s _ _ _ => σ.seq q.bucket = s
  | .stampLoad _ _ c => σ.gen ≤ c.resolved
  | _ => True

/-- A step keeps what every thread knows. -/
structure Fine (t : Thread) (σ σ' : Shared) (pc : Pc) : Prop where
  global : Global σ'
  ok : pc.Ok σ' t
  quiet : ∀ u, u ≠ t → Quiet u σ σ'

theorem Fine.read {pc : Pc} (h : Global σ) (ho : pc.Ok σ t) : Fine t σ σ pc :=
  ⟨h, ho, fun u _ => Quiet.refl u σ⟩

theorem again_ok {a : ℕ} (hq : q.since ≤ σ.appended) : (again q a).Ok σ t := by
  rw [again]
  split
  · exact hq
  · exact hq

variable {u : Thread}

theorem lock_ne {b : ℕ} (hl : σ.lock b = some t) (hu : u ≠ t) : σ.lock b ≠ some u :=
  fun e => hu (some.inj (e.symm.trans hl))

theorem logLock_ne (hl : σ.logLock = some t) (hu : u ≠ t) : σ.logLock ≠ some u :=
  fun e => hu (some.inj (e.symm.trans hl))

theorem SoundUpTo.mono {hist : ℕ → Name} (h : SoundUpTo hist c e) (hg : g ≤ e) :
    SoundUpTo hist c g := fun k h1 h2 => h k h1 (h2.trans hg)

section Steps
variable {a : Act} {pc pc' : Pc} {n : ℕ} {o : Option (Fin 4 × Content × ℕ)} {name : Name}

section

variable (h : Global σ)
include h

/-- A record that is there and does not match extends what is known. -/
theorem SoundUpTo.next (hs : SoundUpTo σ.hist c (g - 1)) (h0 : 0 < g)
    (hg : (σ.log (g % logSize)).gen = g)
    (hm : componentMatch c.path (σ.log (g % logSize)).name = false) : SoundUpTo σ.hist c g := by
  obtain ⟨hle, hname⟩ := h.ring (g % logSize) (by omega)
  rw [hg] at hle hname
  rw [hname] at hm
  intro k h1 h2
  by_cases e : k = g
  · rw [e, ← componentMatch_iff (h.names g h0 hle), hm]
    simp
  · exact hs k h1 (by omega)

theorem replays_sound (hs : SoundUpTo σ.hist c e)
    (hr : σ.replays c.path e cur = true) : SoundUpTo σ.hist c cur := by
  have hall : ∀ n, n ≤ cur - e → SoundUpTo σ.hist c (e + n) := by
    intro n
    induction n with
    | zero => exact fun _ => hs
    | succ n ih =>
      intro hn
      have hmem : e + (n + 1) ∈ List.range' (e + 1) (cur - e) := by
        simp only [List.mem_range'_1]
        omega
      have := List.all_eq_true.mp hr _ hmem
      simp only [Bool.and_eq_true, beq_iff_eq, Bool.not_eq_eq_eq_not] at this
      exact SoundUpTo.next h (ih (by omega)) (by omega) this.1 this.2
  by_cases he : e ≤ cur
  · have := hall (cur - e) le_rfl
    rwa [Nat.add_sub_cancel' he] at this
  · exact hs.mono (by omega)

theorem fine_endRewrite {x : Slot} (hl : σ.lock q.bucket = some t) (hb : σ.busy q.bucket = some i)
    (hx : x.valid = true → SoundUpTo σ.hist x.content x.gen ∧ x.gen ≤ σ.gen) :
    Fine t σ (((σ.setSlot q.bucket i x).bumpSeq q.bucket none).setLock q.bucket none) .idle := by
  refine ⟨(h.rewrite hl (.inr ⟨hb, rfl⟩) fun _ => hx).setLock (by simp [bumpSeq]), trivial,
    fun u hu => ?_⟩
  exact (Quiet.rewrite (lock_ne hl hu)).trans (.setLock (lock_ne hl hu))

section

variable (ho : pc.Ok σ t) (hs : step σ t pc .go = some (σ', pc'))
include ho hs

theorem fine_seq (hpc : pc = .seq q n) : Fine t σ σ' pc' := by
  subst hpc
  simp only [step] at hs
  split at hs
  · cases hs
    exact .read h (again_ok ho)
  · cases hs
    exact .read h ⟨ho, by omega, le_rfl⟩

theorem fine_loadGen (hpc : pc = .loadGen q n s i c) : Fine t σ σ' pc' := by
  subst hpc
  cases hs
  refine .read h ⟨ho.1, fun _ _ _ he => ?_⟩
  cases he
  refine ⟨ho.2, fun hseq => ?_⟩
  obtain ⟨⟨hv, -⟩, rfl⟩ := ho.2.same hseq
  refine h.stamps _ _ hv ?_
  rw [(h.parity q.bucket).mpr (hseq ▸ ho.2.even)]
  simp

theorem fine_recheck (hpc : pc = .recheck q n s o) : Fine t σ σ' pc' := by
  subst hpc
  simp only [step] at hs
  split at hs
  · cases hs
    exact .read h (again_ok ho.1)
  next hseq =>
  rw [not_not] at hseq
  split at hs
  · cases hs
    exact .read h trivial
  cases hs
  obtain ⟨hr, hk⟩ := ho.2 _ _ _ rfl
  obtain ⟨h1, h2⟩ := hk hseq
  obtain ⟨hh, hcont⟩ := hr.same hseq
  exact .read h ⟨ho.1, hr, hcont ▸ hh.2, h1, h2⟩

theorem fine_loadCur (hpc : pc = .loadCur q s i c e) : Fine t σ σ' pc' := by
  subst hpc
  obtain ⟨h1, h2, h3, h4, h5⟩ := ho
  have hsince : q.since ≤ σ.gen := h1.trans h.appended_le
  simp only [step] at hs
  split at hs
  · next he =>
    cases hs
    exact .read h ⟨h1, h4.mono (he ▸ hsince)⟩
  split at hs
  · cases hs
    exact .read h h1
  · cases hs
    exact .read h ⟨h1, h2, h3, ⟨hsince, le_rfl⟩, by omega, by omega, h4⟩

theorem fine_gen (hpc : pc = .gen1 q s i c cur g ∨ pc = .gen2 q s i c cur g) :
    Fine t σ σ' pc' := by
  rcases hpc with rfl | rfl
  all_goals
    simp only [step] at hs
    split at hs
    · cases hs
      exact .read h ho.1
    · cases hs
      exact .read h ho

theorem fine_stamp (hc : Careful σ pc) (hpc : pc = .stamp q s i c cur) : Fine t σ σ' pc' := by
  subst hpc
  obtain ⟨h1, h2, ⟨h3, h4⟩, h5⟩ := ho
  cases hs
  have hidle : σ.busy q.bucket = none := (h.parity _).mpr (hc ▸ h2.even)
  obtain ⟨-, hcont⟩ := h2.same hc
  exact ⟨h.setGen fun _ _ => ⟨hcont ▸ h5, h4⟩, ⟨h1, h5.mono h3⟩, fun u _ => .setGen (.inl hidle)⟩

theorem fine_lock (hpc : pc = .lock q) : Fine t σ σ' pc' := by
  subst hpc
  simp only [step] at hs
  split at hs
  · cases hs
    exact .read h trivial
  obtain ⟨hfree, he⟩ := ite_none_right_eq_some.mp hs
  cases he
  have hidle := h.unlocked _ hfree
  exact ⟨h.setLock hidle, ⟨ho, by simp [setLock], hidle⟩, fun u _ => .setLock (by simp [hfree])⟩

theorem fine_replay (hpc : pc = .replay q i c cur) : Fine t σ σ' pc' := by
  subst hpc
  obtain ⟨h1, h2, h3, h4⟩ := ho
  obtain ⟨-, he⟩ := ite_none_right_eq_some.mp hs
  cases he
  split
  · next hr =>
    obtain ⟨hsound, -⟩ := h.stamps _ _ h2.has.1 (by simp [h2.idle])
    rw [h2.content] at hsound
    exact .read h ⟨h1, h2, ⟨h3, h4⟩, replays_sound h hsound hr⟩
  · exact .read h ⟨h2.lock, h2.idle⟩

theorem fine_restamp (hpc : pc = .restamp q i c cur) : Fine t σ σ' pc' := by
  subst hpc
  obtain ⟨h1, h2, ⟨h3, h4⟩, h5⟩ := ho
  cases hs
  exact ⟨h.setGen fun _ _ => ⟨h2.content ▸ h5, h4⟩, ⟨h1, h2.lock, h2.idle, h5.mono h3⟩,
    fun u _ => .setGen (.inl h2.idle)⟩

theorem fine_retire (hpc : pc = .retire q i) : Fine t σ σ' pc' := by
  subst hpc
  obtain ⟨h1, h2⟩ := ho
  cases hs
  refine ⟨h.rewrite h1 (.inl ⟨h2, rfl⟩) nofun, ⟨h1, i, ?_, ?_⟩,
    fun u hu => .rewrite (lock_ne h1 hu)⟩
  · simp [bumpSeq]
  · simp [bumpSeq, setSlot_slots]

theorem fine_retired (hpc : pc = .retired q) : Fine t σ σ' pc' := by
  subst hpc
  obtain ⟨h1, i, h2, h3⟩ := ho
  cases hs
  have := fine_endRewrite h h1 h2 fun hv => absurd (h3.symm.trans hv) (by simp)
  rwa [setSlot_self] at this

theorem fine_choose (hpc : pc = .choose q c) : Fine t σ σ' pc' := by
  subst hpc
  obtain ⟨h1, h2⟩ := ho
  simp only [step] at hs
  split at hs
  · cases hs
    exact ⟨h.setLock h2, trivial, fun u hu => .setLock (lock_ne h1 hu)⟩
  cases hs
  have hl : (σ.advance q.bucket).lock q.bucket = some t := by rw [advance_lock, h1]
  have hb : (σ.advance q.bucket).busy q.bucket = none := by rw [advance_busy, h2]
  refine ⟨h.advance.rewrite hl (.inl ⟨hb, rfl⟩) nofun, ⟨hl, ?_, ?_⟩,
    fun u hu => Quiet.advance.trans (.rewrite (lock_ne hl hu))⟩
  · simp [bumpSeq]
  · simp [bumpSeq, setSlot_slots]

theorem fine_stampStore (hpc : pc = .stampStore q i c cur) : Fine t σ σ' pc' := by
  subst hpc
  obtain ⟨h1, h2, h3⟩ := ho
  cases hs
  refine ⟨h.setGen fun _ hb => absurd h1.busy hb, ⟨⟨h1.lock, h1.busy, ?_⟩, h2, h3, ?_⟩,
    fun u hu => .setGen (.inr (lock_ne h1.lock hu))⟩
  · simpa [setGen, setSlot_slots] using h1.content
  · simp [setGen, setSlot_slots]

/-- A new entry is stamped with a record its vnode was found after. -/
theorem fine_close (hpc : pc = .close q i c cur) : Fine t σ σ' pc' := by
  subst hpc
  obtain ⟨h1, h2, h3, h4⟩ := ho
  cases hs
  refine fine_endRewrite h h1.lock h1.busy fun _ => ⟨fun g hg1 hg2 => ?_, h4 ▸ h3⟩
  rw [h1.content] at hg1
  simp only [h4] at hg2
  omega

theorem fine_bump (hpc : pc = .bump name) : Fine t σ σ' pc' := by
  subst hpc
  obtain ⟨h1, h2⟩ := ho
  cases hs
  refine ⟨h.bump h2, ⟨h1, succ_pos _, le_rfl, ?_, ?_⟩, fun u _ => .bump⟩
  · exact h.appended_le.trans (le_succ _)
  · simp

theorem fine_clear (hpc : pc = .clear g name) : Fine t σ σ' pc' := by
  subst hpc
  cases hs
  refine ⟨h.setLog fun h0 => absurd rfl h0, ⟨⟨ho.lock, ho.pos, ho.le, ho.newer, ho.hist⟩, ?_⟩,
    fun u hu => .setLog (logLock_ne ho.lock hu)⟩
  simp [setLog]

theorem fine_write (hpc : pc = .write g name) : Fine t σ σ' pc' := by
  subst hpc
  obtain ⟨ha, -⟩ := ho
  cases hs
  refine ⟨h.setLog fun h0 => absurd rfl h0, ⟨⟨ha.lock, ha.pos, ha.le, ha.newer, ha.hist⟩, ?_⟩,
    fun u hu => .setLog (logLock_ne ha.lock hu)⟩
  simp [setLog]

theorem fine_publish (hpc : pc = .publish g name) : Fine t σ σ' pc' := by
  subst hpc
  obtain ⟨ha, -⟩ := ho
  cases hs
  exact ⟨h.setLog fun _ => ⟨ha.le, ha.hist.symm⟩, ⟨ha.lock, ha.le, ha.newer⟩,
    fun u hu => .setLog (logLock_ne ha.lock hu)⟩

theorem fine_unlock (hpc : pc = .unlock g) : Fine t σ σ' pc' := by
  subst hpc
  obtain ⟨h1, h2, h3⟩ := ho
  cases hs
  exact ⟨{ h with appended_le := h2 }, trivial, fun u hu => .setLogLock (logLock_ne h1 hu) h3⟩

end

section

variable (ho : pc.Ok σ t) (hs : step σ t pc a = some (σ', pc'))
include ho hs

theorem fine_scan (hpc : pc = .scan q n s) : Fine t σ σ' pc' := by
  subst hpc
  cases a with
  | scan o =>
    cases o with
    | none =>
      cases hs
      exact .read h ⟨ho.1, fun _ _ _ he => absurd he (by simp)⟩
    | some x =>
      obtain ⟨hg, he⟩ := ite_none_right_eq_some.mp hs
      cases he
      exact .read h ⟨ho.1, ho.2.1, ho.2.2, hg⟩
  | _ => cases hs

theorem fine_compare (hc : Careful σ pc) (hpc : pc = .compare q s i c cur g) : Fine t σ σ' pc' := by
  subst hpc
  obtain ⟨h1, h2, h3, h4, h5, h6, h7⟩ := ho
  obtain ⟨hrec, hlen⟩ := hc
  cases a with
  | outcome b =>
    obtain ⟨hb, hs⟩ := ite_none_right_eq_some.mp hs
    have hpath : c.path = q.path := h3.2.trans (List.take_of_length_le (by omega))
    cases b with
    | true =>
      cases hs
      exact .read h h1
    | false =>
      have hsound := h7.next h h5 hrec (hpath ▸ (hb hrec).symm)
      simp only [Bool.false_eq_true, if_false] at hs
      split at hs
      · cases hs
        exact .read h ⟨h1, h2, h3, h4, by omega, by omega, hsound⟩
      · cases hs
        exact .read h ⟨h1, h2, h4, hsound.mono (by omega)⟩
  | _ => cases hs

theorem fine_tryref (hpc : pc = .tryref q c) : Fine t σ σ' pc' := by
  subst hpc
  cases a with
  | outcome b =>
    cases hs
    cases b with
    | true => exact .read h ho
    | false => exact .read h ho.1
  | _ => cases hs

theorem fine_find (hpc : pc = .find q) : Fine t σ σ' pc' := by
  subst hpc
  obtain ⟨h1, h2, h3⟩ := ho
  cases a with
  | way i =>
    obtain ⟨hh, he⟩ := ite_none_right_eq_some.mp hs
    cases he
    exact .read h ⟨h1, h2, h3, hh, rfl⟩
  | miss =>
    obtain ⟨-, he⟩ := ite_none_right_eq_some.mp hs
    cases he
    exact ⟨h.setLock h3, trivial, fun u hu => .setLock (lock_ne h2 hu)⟩
  | _ => cases hs

theorem fine_equal (hpc : pc = .equal q i c cur) : Fine t σ σ' pc' := by
  subst hpc
  obtain ⟨h1, h2, h3, h4⟩ := ho
  cases a with
  | outcome b =>
    simp only [step] at hs
    split at hs
    · next he =>
      cases hs
      obtain ⟨hsound, -⟩ := h.stamps _ _ h2.has.1 (by simp [h2.idle])
      rw [h2.content, he] at hsound
      exact .read h ⟨h1, h2.lock, h2.idle, hsound.mono h3⟩
    · cases hs
      cases b with
      | true => exact .read h ⟨h2.lock, h2.idle⟩
      | false => exact .read h ⟨h1, h2, h3, h4⟩
  | _ => cases hs

end

/-- **A careful step keeps what every thread knows.** -/
theorem step_fine (ho : pc.Ok σ t) (hc : Careful σ pc)
    (hs : step σ t pc a = some (σ', pc')) : Fine t σ σ' pc' := by
  cases a with
  | startLookup dir path =>
    cases pc with
    | idle =>
      cases hs
      exact .read h le_rfl
    | _ => cases hs
  | startInsert dir path node =>
    cases pc with
    | idle =>
      obtain ⟨-, he⟩ := ite_none_right_eq_some.mp hs
      cases he
      exact .read h trivial
    | _ => cases hs
  | startRecord name =>
    cases pc with
    | idle =>
      obtain ⟨hn, he⟩ := ite_none_right_eq_some.mp hs
      cases he
      exact .read h hn.1
    | _ => cases hs
  | scan =>
    cases pc with
    | scan => exact fine_scan h ho hs rfl
    | _ => cases hs
  | way | miss =>
    cases pc with
    | find => exact fine_find h ho hs rfl
    | _ => cases hs
  | outcome =>
    cases pc with
    | compare => exact fine_compare h ho hs hc rfl
    | tryref => exact fine_tryref h ho hs rfl
    | equal => exact fine_equal h ho hs rfl
    | _ => cases hs
  | go =>
    cases pc with
    | idle | scan | compare | tryref | find | equal => cases hs
    | seq => exact fine_seq h ho hs rfl
    | loadGen => exact fine_loadGen h ho hs rfl
    | recheck => exact fine_recheck h ho hs rfl
    | loadCur => exact fine_loadCur h ho hs rfl
    | gen1 => exact fine_gen h ho hs (.inl rfl)
    | gen2 => exact fine_gen h ho hs (.inr rfl)
    | stamp => exact fine_stamp h ho hs hc rfl
    | returned q c =>
      cases hs
      exact .read h trivial
    | lock => exact fine_lock h ho hs rfl
    | loadLocked q i c =>
      cases hs
      exact .read h ⟨ho.1, ho.2, ho.1.trans h.appended_le, le_rfl⟩
    | replay => exact fine_replay h ho hs rfl
    | restamp => exact fine_restamp h ho hs rfl
    | hit q c =>
      obtain ⟨h1, h2, h3, h4⟩ := ho
      cases hs
      exact ⟨h.setLock h3, ⟨h1, h4⟩, fun u hu => .setLock (lock_ne h2 hu)⟩
    | retire => exact fine_retire h ho hs rfl
    | retired => exact fine_retired h ho hs rfl
    | insert q c =>
      obtain ⟨hfree, he⟩ := ite_none_right_eq_some.mp hs
      cases he
      have hidle := h.unlocked _ hfree
      exact ⟨h.setLock hidle, ⟨by simp [setLock], hidle⟩, fun u _ => .setLock (by simp [hfree])⟩
    | choose => exact fine_choose h ho hs rfl
    | stampLoad q i c =>
      cases hs
      exact .read h ⟨ho, hc, le_rfl⟩
    | stampStore => exact fine_stampStore h ho hs rfl
    | close => exact fine_close h ho hs rfl
    | record name =>
      obtain ⟨hfree, he⟩ := ite_none_right_eq_some.mp hs
      cases he
      exact ⟨{ h with }, ⟨rfl, ho⟩, fun u _ => .setLogLock (by simp [hfree]) le_rfl⟩
    | bump => exact fine_bump h ho hs rfl
    | clear => exact fine_clear h ho hs rfl
    | write => exact fine_write h ho hs rfl
    | publish => exact fine_publish h ho hs rfl
    | unlock => exact fine_unlock h ho hs rfl

end

end Steps

/-! ## Runs -/

structure State where
  shared : Shared
  pcs : Thread → Pc

def State.next (x : State) (t : Thread) (a : Act) : Option State :=
  (step x.shared t (x.pcs t) a).map fun r => ⟨r.1, update x.pcs t r.2⟩

def start : State where
  shared :=
    { gen := 0
      log := fun _ => ⟨0, []⟩
      logLock := none
      seq := fun _ => 0
      lock := fun _ => none
      victim := fun _ => 0
      slots := fun _ _ => ⟨⟨0, [], 0, 0⟩, false, 0⟩
      hist := fun _ => []
      appended := 0
      busy := fun _ => none }
  pcs := fun _ => .idle

/-- The states of the runs whose steps are careful. -/
inductive Reach : State → Prop
  | start : Reach start
  | next {x y : State} (t : Thread) (a : Act) : Reach x → Careful x.shared (x.pcs t) →
      x.next t a = some y → Reach y

structure Inv (x : State) : Prop where
  global : Global x.shared
  ok : ∀ t, (x.pcs t).Ok x.shared t

theorem Inv.next {x y : State} {a : Act} (h : Inv x) (hc : Careful x.shared (x.pcs t))
    (hs : x.next t a = some y) : Inv y := by
  obtain ⟨⟨σ', pc'⟩, hstep, rfl⟩ := map_eq_some_iff.mp hs
  have hf := step_fine h.global (h.ok t) hc hstep
  refine ⟨hf.global, fun u => ?_⟩
  by_cases e : u = t
  · subst e
    simpa using hf.ok
  · simp only [update_of_ne e]
    exact (h.ok u).quiet (hf.quiet u e) h.global

theorem Inv.start : Inv start :=
  ⟨⟨fun _ h => absurd rfl h, fun _ h1 h2 => absurd h1 (by simpa [PathLog.start] using h2), le_rfl,
    fun _ => by simp [PathLog.start], fun _ _ => rfl,
    fun _ _ h => absurd h (by simp [PathLog.start])⟩, fun _ => trivial⟩

theorem Reach.inv {x : State} (h : Reach x) : Inv x := by
  induction h with
  | start => exact .start
  | next t a _ hc hs ih => exact ih.next hc hs


/-- **A lookup sees every record appended before it began.**  In a run whose steps are careful
it does not return an entry whose path has the name of such a record for a component, unless
its vnode was found after the record. -/
theorem lookup_sees_records {x : State} (h : Reach x) {t : Thread} {q : Query} {c : Content}
    (hr : x.pcs t = .returned q c) {g : ℕ} (h1 : c.resolved < g) (h2 : g ≤ q.since) :
    ¬IsComponent (x.shared.hist g) c.path := by
  have hok := h.inv.ok t
  rw [hr] at hok
  exact hok.2 g h1 h2

instance (σ : Shared) (pc : Pc) : Decidable (Careful σ pc) := by
  cases pc with
  | compare => exact inferInstanceAs (Decidable (_ ∧ _))
  | stamp => exact inferInstanceAs (Decidable (_ = _))
  | stampLoad => exact inferInstanceAs (Decidable (_ ≤ _))
  | _ => exact inferInstanceAs (Decidable True)

def exec (ok : State → Thread → Bool) (x : State) : List (Thread × Act) → Option State
  | [] => some x
  | (t, a) :: as => if ok x t then (x.next t a).bind fun y => exec ok y as else none

variable {as : List (Thread × Act)}

theorem Reach.exec {x y : State} (h : Reach x)
    (he : PathLog.exec (fun x t => decide (Careful x.shared (x.pcs t))) x as = some y) :
    Reach y := by
  induction as generalizing x with
  | nil => exact some.inj he ▸ h
  | cons a as ih =>
    obtain ⟨hok, he⟩ := ite_none_right_eq_some.mp he
    obtain ⟨z, h1, h2⟩ := bind_eq_some_iff.mp he
    exact ih (.next a.1 a.2 h (of_decide_eq_true hok) h1) h2

/-- A run ends with a lookup that misses a record. -/
def Misses (as : List (Thread × Act)) : Prop :=
  ∃ x t q c g, exec (fun _ _ => true) start as = some x ∧ x.pcs t = .returned q c ∧
    c.resolved < g ∧ g ≤ q.since ∧ IsComponent (x.shared.hist g) c.path

/-- The thread has returned an entry that record `1` names. -/
def returnsNamed (t : Thread) (x : State) : Bool :=
  match x.pcs t with
  | .returned q c =>
    decide (c.resolved < 1 ∧ 1 ≤ q.since ∧ x.shared.hist 1 ≠ []) &&
      componentMatch c.path (x.shared.hist 1)
  | _ => false

theorem Misses.of_exec (t : Thread)
    (h : (exec (fun _ _ => true) start as).any (returnsNamed t) = true) : Misses as := by
  cases he : exec (fun _ _ => true) start as with
  | none => simp [he] at h
  | some x =>
    rw [he, any_some, returnsNamed] at h
    split at h
    · next q c hpc =>
      rw [Bool.and_eq_true, decide_eq_true_eq] at h
      obtain ⟨⟨h1, h2, h3⟩, h4⟩ := h
      exact ⟨x, t, q, c, 1, he, hpc, h1, h2, (componentMatch_iff h3).mp h4⟩
    · simp at h

/-! ## Runs in one directory -/

namespace Runs

def dir : Node := 4096

def steps (t : Thread) (n : ℕ) : List (Thread × Act) := List.replicate n (t, .go)

def enter (t : Thread) (path : Name) (node : Node) : List (Thread × Act) :=
  (t, .startInsert dir path node) :: steps t 5

def remove (t : Thread) (name : Name) : List (Thread × Act) := (t, .startRecord name) :: steps t 6

/-- A lookup up to its check that the counter has not moved. -/
def look (t : Thread) (path : Name) (i : Fin 4) (c : Content) : List (Thread × Act) :=
  [(t, .startLookup dir path), (t, .go), (t, .scan (some (i, c))), (t, .go), (t, .go)]

/-- The name is removed after the walk has found it, and before it is entered. -/
def lateStamp : List (Thread × Act) :=
  [(0, .startInsert dir [97] 7)] ++ remove 1 [97] ++ steps 0 5 ++
    look 1 [97] 0 ⟨dir, [97], 7, 0⟩ ++ [(1, .go), (1, .outcome true)]

/-- The entry of `o` is found, then evicted for `cpd`; the stamp for `o` goes to `cpd`. -/
def movedStamp : List (Thread × Act) :=
  enter 0 [111] 1 ++ enter 0 [101, 119] 2 ++ enter 0 [102, 110] 3 ++ enter 0 [98, 122, 111] 4 ++
    look 0 [111] 0 ⟨dir, [111], 1, 0⟩ ++ enter 1 [99, 112, 100] 5 ++ remove 1 [99, 112, 100] ++
    steps 0 3 ++ [(0, .outcome false), (0, .go)] ++
    look 1 [99, 112, 100] 0 ⟨dir, [99, 112, 100], 5, 0⟩ ++ [(1, .go), (1, .outcome true)]

/-- The record is taken for another one between the check of its number and the comparison. -/
def reusedRecord : List (Thread × Act) :=
  enter 0 [97] 7 ++ remove 1 [97] ++ look 0 [97] 0 ⟨dir, [97], 7, 0⟩ ++ steps 0 3 ++
    (List.replicate 32 (remove 1 [98])).flatten ++
    [(0, .outcome false), (0, .go), (0, .outcome true)]

/-- The path is one byte longer than that of the entry, and its last component another one. -/
def cutPath : List (Thread × Act) :=
  let path := List.replicate 254 slash ++ [98]
  enter 0 path 7 ++ remove 0 [98] ++ look 0 (path ++ [99]) 0 ⟨dir, path, 7, 0⟩ ++ steps 0 3 ++
    [(0, .outcome false), (0, .go), (0, .outcome true)]

/-- Another name is removed between the entry and the lookup. -/
def inTurn : List (Thread × Act) :=
  enter 0 [97] 7 ++ remove 1 [98] ++ look 0 [97] 0 ⟨dir, [97], 7, 0⟩ ++ steps 0 3 ++
    [(0, .outcome false), (0, .go), (0, .outcome true)]

theorem inTurn_runs :
    (exec (fun x t => decide (Careful x.shared (x.pcs t))) start inTurn).isSome = true := by
  decide +kernel

def found : State :=
  (exec (fun x t => decide (Careful x.shared (x.pcs t))) start inTurn).get inTurn_runs

theorem found_reach : Reach found := Reach.start.exec (some_get inTurn_runs).symm

theorem found_returned :
    found.pcs 0 = .returned ⟨bucketOf dir [97], dir, [97], 1⟩ ⟨dir, [97], 7, 0⟩ := rfl

end Runs

open Runs

/-- **Not every lookup does**: the stamp of a new entry is taken when it is entered; a stamp is
moved after the check of the counter; a name is compared after the check of its record's number;
and a long path is compared with the records as a whole, but with the entry up to `255` bytes. -/
theorem lookup_misses_records : Misses lateStamp ∧ Misses movedStamp ∧
    Misses reusedRecord ∧ Misses cutPath := by
  refine ⟨.of_exec 1 ?_, .of_exec 1 ?_, .of_exec 0 ?_, .of_exec 0 ?_⟩
  · decide +kernel
  · decide +kernel
  · decide +kernel
  · decide +kernel

theorem lookup_sees_records_in_turn : Reach found ∧ ¬IsComponent (found.shared.hist 1) [97] :=
  ⟨found_reach, lookup_sees_records found_reach found_returned (by decide) (by decide)⟩

end AvoryOS.Vfs.PathLog
