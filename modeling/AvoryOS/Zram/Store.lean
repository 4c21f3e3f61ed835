import AvoryOS.Lib.Linked
import AvoryOS.Zram.Lz4
import Mathlib.Algebra.BigOperators.Group.Finset.Basic
import Mathlib.Algebra.Order.Group.Nat
import Mathlib.Order.Interval.Finset.Nat

/-!
# The store of compressed pages

A slot is an immutable compressed page with a number of pins.  A page of one repeated word is
kept as that word; any other page is compressed into an object of a packed frame.  A packed
frame has objects of one size, a multiple of `64` bytes, and a mask of those that are free;
frames with a free object are on a list for their size.  Slots without pins are on a list
threaded through the table.

Each function is one step: what it does under the lock or to its own slot cannot be told apart.
A doubly linked list is the list of its members, and a pointer into a frame a frame with an
offset.  Counters are natural numbers, except for the pins, where the code looks at the largest
value.
-/

namespace AvoryOS.Zram

open Function

/-! ## Packed frames -/

/-- `struct packed_page`; the size follows from the bin. -/
structure PackedPage where
  frame : ℕ
  mask : BitVec 64
  bin : ℕ

def PackedPage.size (p : PackedPage) : ℕ := (p.bin + 1) * 64

def PackedPage.objects (p : PackedPage) : ℕ := 4096 / p.size

/-- The mask of a frame without objects in use. -/
def PackedPage.all (p : PackedPage) : BitVec 64 :=
  if p.objects = 64 then ~~~0 else (1#64 <<< p.objects) - 1

/-- `__builtin_ctzll`. -/
def ctz (m : BitVec 64) : ℕ := ((List.range 64).find? fun i => m.getLsbD i).getD 64

def packedCharge : ℕ := 4096 + 64

structure Slot where
  /-- A frame and an offset in it. -/
  data : ℕ × ℕ
  pool : Option ℕ
  /-- The eight bytes of the repeated word. -/
  same : Bytes
  refs : ℕ
  next : ℕ
  length : ℕ

def Slot.empty : Slot := ⟨(0, 0), none, [], 0, 0, 0⟩

structure Stats where
  storedPages : ℕ
  compressedBytes : ℕ
  samePages : ℕ
  memoryBytes : ℕ
  memoryLimit : ℕ
  peakBytes : ℕ
  allocationFailures : ℕ
  rejectedPages : ℕ

structure Store where
  slots : ℕ → Slot
  count : ℕ
  freeHead : ℕ
  /-- The descriptors, by address. -/
  pages : ℕ → Option PackedPage
  /-- `partial`. -/
  partials : ℕ → List ℕ
  mem : ℕ → ℕ → UInt8
  stats : Stats

/-- What the allocators answer: a descriptor and a frame. -/
structure Env where
  desc : Option ℕ
  frame : Option ℕ

/-- `packed_alloc`: the descriptor and the number of the object. -/
def packedAlloc (s : Store) (n : ℕ) (env : Env) : Option (ℕ × ℕ) × Store :=
  let bin := (n + 63) / 64 - 1
  match s.partials bin with
  | p :: _ =>
    match s.pages p with
    | none => (none, s)
    | some pg =>
      let i := ctz pg.mask
      let mask := pg.mask &&& ~~~(1#64 <<< i)
      (some (p, i), { s with
        pages := update s.pages p (some { pg with mask })
        partials := if mask = 0 then
          update s.partials bin ((s.partials bin).erase p) else s.partials })
  | [] =>
    if s.stats.memoryLimit < s.stats.memoryBytes ∨
        s.stats.memoryLimit - s.stats.memoryBytes < packedCharge then (none, s)
    else
      -- what was reserved is given back if an allocation fails
      match env.desc, env.frame with
      | some p, some frame =>
        let pg : PackedPage := ⟨frame, 0, bin⟩
        (some (p, 0), { s with
          pages := update s.pages p (some { pg with mask := pg.all &&& ~~~1 })
          partials := update s.partials bin (p :: s.partials bin)
          stats := { s.stats with memoryBytes := s.stats.memoryBytes + packedCharge } })
      | _, _ => (none, s)

/-- The lists once an object of `p` is free: a full frame was on none. -/
def relink (s : Store) (p : ℕ) (pg : PackedPage) : ℕ → List ℕ :=
  if pg.mask = 0 then update s.partials pg.bin (p :: s.partials pg.bin) else s.partials

/-- The part of `zram_slot_put` that gives an object back. -/
def packedFree (s : Store) (p off : ℕ) : Store :=
  match s.pages p with
  | none => s
  | some pg =>
    let i := off / pg.size
    let mask := pg.mask ||| (1#64 <<< i)
    let partials := relink s p pg
    if mask = pg.all then
      { s with
        pages := update s.pages p none
        partials := update partials pg.bin ((partials pg.bin).erase p)
        stats := { s.stats with memoryBytes := s.stats.memoryBytes - packedCharge } }
    else { s with pages := update s.pages p (some { pg with mask }), partials }

/-! ## Pages -/

/-- The words of a page after the first are equal to it. -/
def sameWords (pattern : Bytes) : ℕ → Bytes → Bool
  | 0, _ => true
  | n + 1, l => l.take 8 == pattern && sameWords pattern n (l.drop 8)

def readMem (mem : ℕ → ℕ → UInt8) (at_ : ℕ × ℕ) (n : ℕ) : Bytes :=
  (List.range n).map fun i => mem at_.1 (at_.2 + i)

def writeMem (mem : ℕ → ℕ → UInt8) (at_ : ℕ × ℕ) (b : Bytes) : ℕ → ℕ → UInt8 :=
  update mem at_.1 fun i =>
    if at_.2 ≤ i ∧ i < at_.2 + b.length then b[i - at_.2]?.getD 0 else mem at_.1 i

/-- The slot is published; `pool` says which object has the compressed page. -/
def publish (s : Store) (id : ℕ) (data : ℕ × ℕ) (pool : Option ℕ) (pattern comp : Bytes) : Store :=
  { s with
    slots := update s.slots id
      { s.slots id with data, pool, same := pattern, length := comp.length, refs := 1 }
    stats := { s.stats with
      storedPages := s.stats.storedPages + 1
      compressedBytes := s.stats.compressedBytes + comp.length
      samePages := s.stats.samePages + if comp = [] then 1 else 0
      peakBytes := max s.stats.peakBytes s.stats.memoryBytes } }

def Store.reject (s : Store) : Store :=
  { s with stats := { s.stats with rejectedPages := s.stats.rejectedPages + 1 } }

def Store.fail (s : Store) : Store :=
  { s with stats := { s.stats with allocationFailures := s.stats.allocationFailures + 1 } }

/-- The compressed page, empty for a page of one word, or `none` if it does not pay.  The first
`1024` bytes are tried before the whole page. -/
def squeeze (page : Bytes) : Option Bytes :=
  if sameWords (page.take 8) 511 (page.drop 8) then some []
  else if (compress (page.take 1024) 640 fun _ => 0) = none then none
  else compress page 2048 fun _ => 0

/-- `zram_store_page`; `0` if the page is not stored. -/
def storePage (s : Store) (page : Bytes) (env : Env) : ℕ × Store :=
  match squeeze page with
  | none => (0, s.reject)
  | some comp =>
    let id := s.freeHead
    if id = 0 then (0, s.fail)
    else
      let s1 := { s with freeHead := (s.slots id).next }
      if comp = [] then (id, publish s1 id (0, 0) none (page.take 8) comp)
      else
        match packedAlloc s1 comp.length env with
        | (none, s2) =>
          (0, Store.fail { s2 with
            slots := update s2.slots id { s2.slots id with next := s2.freeHead }
            freeHead := id })
        | (some (p, i), s2) =>
          let data := (s2.pages p).elim (0, 0) fun pg => (pg.frame, i * pg.size)
          (id, publish { s2 with mem := writeMem s2.mem data comp } id data (some p)
            (page.take 8) comp)

/-- `UINT32_MAX`. -/
def maxRefs : ℕ := 2 ^ 32 - 1

/-- `zram_slot_get`. -/
def slotGet (s : Store) (id : ℕ) : Bool × Store :=
  if id = 0 ∨ s.count < id ∨ (s.slots id).refs = 0 ∨ (s.slots id).refs = maxRefs then (false, s)
  else (true, { s with
    slots := update s.slots id { s.slots id with refs := (s.slots id).refs + 1 } })

/-- The slot is cleared and put on the free list. -/
def clearSlot (s : Store) (id : ℕ) : Store :=
  { s with
    slots := update s.slots id { Slot.empty with next := s.freeHead }
    freeHead := id
    stats := { s.stats with
      storedPages := s.stats.storedPages - 1
      compressedBytes := s.stats.compressedBytes - (s.slots id).length
      samePages := s.stats.samePages - if (s.slots id).length = 0 then 1 else 0 } }

/-- `zram_slot_put`. -/
def slotPut (s : Store) (id : ℕ) : Store :=
  let slot := s.slots id
  if id = 0 ∨ s.count < id ∨ slot.refs = 0 ∨ slot.refs = maxRefs then s
  else if slot.refs - 1 ≠ 0 then
    { s with slots := update s.slots id { slot with refs := slot.refs - 1 } }
  else
    clearSlot (slot.pool.elim s fun p => packedFree s p slot.data.2) id

/-- `zram_slot_read`. -/
def slotRead (s : Store) (id : ℕ) : Option Bytes :=
  let slot := s.slots id
  if id = 0 ∨ s.count < id ∨ slot.refs = 0 then none
  else if slot.length = 0 then some (List.replicate 512 slot.same).flatten
  else decompress (readMem s.mem slot.data slot.length) 4096

/-- The size of the table, in whole frames. -/
def tableBytes (capacity : ℕ) : ℕ := ((capacity + 1) * 40 + 64 + 4095) / 4096 * 4096

/-- `zram_store_init`. -/
def init (capacity limit : ℕ) (mem : ℕ → ℕ → UInt8) : Option Store :=
  if capacity = 0 ∨ 524288 < capacity ∨ limit < 4096 ∨ limit < tableBytes capacity then none
  else some
    { slots := fun i =>
        { Slot.empty with next := if i = 0 ∨ capacity ≤ i then 0 else i + 1 }
      count := capacity
      freeHead := 1
      pages := fun _ => none
      partials := fun _ => []
      mem
      stats := ⟨0, 0, 0, tableBytes capacity, limit, tableBytes capacity, 0, 0⟩ }

end AvoryOS.Zram
