import AvoryOS.Lib.Circular
import Mathlib.Data.Nat.Bitwise

/-!
# Zones and their free lists

Frames are given out in blocks of `2 ^ order` frames.  A zone keeps one circular list for each
order; the links, the order and a tag lie in the first frame of the free block itself, and one
bitmap over all frames says which of them are taken.

Because the headers lie in memory that others have written before, every use of a list node is
preceded by `nodeValid`, and the lists are cut where a node is not valid.
-/

namespace AvoryOS.Mm

open Circular Function

/-- `PAGE_SIZE`. -/
def pageSize : ℕ := 4096

/-- `MAX_ORDER`. -/
def maxOrder : ℕ := 20

/-- What the code tells apart about a list pointer. -/
inductive Ptr
  /-- The list of an order of a zone. -/
  | head (zone order : ℕ)
  /-- The start of a frame in the direct map. -/
  | page (pfn : ℕ)
  /-- `NULL`, or an address that is neither; it is never followed. -/
  | wild
deriving DecidableEq

/-- What boot fixes.  The tags are odd and taken from the clock, one zone after another. -/
structure Machine where
  /-- `pmm_lowest_page`. -/
  lowest : ℕ
  /-- `pmm_highest_page`. -/
  highest : ℕ
  magic : ℕ → ℕ
  magic_ne_zero : ∀ z, magic z ≠ 0
  magic_injective : Function.Injective magic

/-- `pmm_page_count`. -/
def Machine.pageCount (m : Machine) : ℕ := m.highest - m.lowest

structure Zone where
  freeBlocks : ℕ → ℕ
  freePagesInLists : ℕ
  freePages : ℕ

structure Pmm where
  /-- `pmm_bitmap`: the frame is taken. -/
  bitmap : ℕ → Bool
  /-- `pmm_managed_bitmap`. -/
  managed : ℕ → Bool
  /-- `pmm_refcounts`. -/
  refcounts : ℕ → ℕ
  /-- The list nodes: those of the zones, and the first words of every frame. -/
  node : Ptr → ListHead Ptr
  /-- The words behind the list node of a frame. -/
  order : ℕ → ℕ
  magic : ℕ → ℕ
  zone : ℕ → Zone

variable (m : Machine)

/-! ## Frames -/

/-- `pmm_bitmap_set_range` and `pmm_bitmap_clear_range`. -/
def markRange (v : Bool) (bm : ℕ → Bool) (start count : ℕ) : ℕ → Bool :=
  if m.lowest ≤ start ∧ start < m.highest then
    fun p => if start ≤ p ∧ p < min (start + count) m.highest then v else bm p
  else bm

def isManaged (s : Pmm) (pfn : ℕ) : Bool :=
  decide (m.lowest ≤ pfn ∧ pfn < m.highest) && s.managed pfn

/-- `buddy_link_readable`. -/
def linkReadable (s : Pmm) (node head : Ptr) : Bool :=
  decide (node = head) || match node with
    | .page p => isManaged m s p
    | _ => false

/-- `buddy_zone_node_valid`.  The direct map starts at a multiple of the largest block, so an
address is aligned when the frame number is. -/
def nodeValid (s : Pmm) (z : ℕ) (node : Ptr) (order : ℕ) : Bool :=
  match node with
  | .page p =>
    isManaged m s p && decide (p % 2 ^ order = 0) && decide (s.order p = order) &&
      decide (s.magic p = m.magic z) && !s.bitmap p &&
      linkReadable m s (s.node node).next (.head z order) &&
      linkReadable m s (s.node node).prev (.head z order) &&
      decide ((s.node (s.node node).next).prev = node) &&
      decide ((s.node (s.node node).prev).next = node)
  | _ => false

/-! ## Lists and counters -/

/-- `buddy_list_account`. -/
def Zone.account (zn : Zone) (order blocks : ℕ) : Zone :=
  if zn.freeBlocks order = blocks then zn
  else
    { zn with
      freeBlocks := update zn.freeBlocks order blocks
      freePagesInLists :=
        zn.freePagesInLists - zn.freeBlocks order * 2 ^ order + blocks * 2 ^ order }

def account (s : Pmm) (z order blocks : ℕ) : Pmm :=
  { s with zone := update s.zone z ((s.zone z).account order blocks) }

/-- `buddy_publish_free_pages`. -/
def publish (s : Pmm) (z : ℕ) : Pmm :=
  { s with
    zone := update s.zone z { s.zone z with freePages := (s.zone z).freePagesInLists } }

/-- `list_add_tail`: a head that was never set up is set up first. -/
def listAddTail (s : Pmm) (x h : Ptr) : Pmm :=
  let node := if (s.node h).prev = .wild ∨ (s.node h).next = .wild then init s.node h else s.node
  { s with node := addTail node x h }

/-- `list_del`: a node that is not linked is left alone. -/
def listDel (s : Pmm) (x : Ptr) : Pmm :=
  if (s.node x).next = .wild ∨ (s.node x).prev = .wild then s
  else { s with node := del s.node x .wild }

/-- `buddy_list_link`. -/
def link (s : Pmm) (z p order : ℕ) : Pmm :=
  let s := { s with
    order := update s.order p order
    magic := update s.magic p (m.magic z) }
  let s := listAddTail s (.page p) (.head z order)
  account s z order ((s.zone z).freeBlocks order + 1)

/-- `buddy_list_unlink`. -/
def unlink (s : Pmm) (z p : ℕ) : Pmm :=
  let s := listDel s (.page p)
  let s := account s z (s.order p) ((s.zone z).freeBlocks (s.order p) - 1)
  { s with magic := update s.magic p 0 }

/-- `buddy_list_nonempty`; `left` is the number of steps that remain of `pmm_page_count`. -/
def nonempty (z order : ℕ) (left : ℕ) (s : Pmm) : Bool × Pmm :=
  let head := Ptr.head z order
  let first := (s.node head).next
  -- the list is given up
  let reset := (false, account { s with node := init s.node head } z order 0)
  if first = head then (false, account s z order 0)
  else
    match left with
    | 0 => reset
    | left + 1 =>
      if nodeValid m s z first order then (true, s)
      else
        -- the first node is skipped if what it points to can be read
        match first with
        | .page p =>
          let next := (s.node first).next
          if isManaged m s p ∧ left ≠ 0 ∧ next ≠ first ∧ next ≠ head ∧
              linkReadable m s next head = true then
            let s := { s with node := setPrev (setNext s.node head next) next head }
            let blocks := (s.zone z).freeBlocks order
            nonempty z order left (if blocks = 0 then s else account s z order (blocks - 1))
          else reset
        | _ => reset

/-- `buddy_list_validate` from a position on; `left` is as for `nonempty`. -/
def validateFrom (z order : ℕ) (left : ℕ) (prev pos : Ptr) (s : Pmm) : Pmm :=
  let head := Ptr.head z order
  -- the list ends at `prev`
  let cut (count : ℕ) : Pmm :=
    publish (account { s with node := setPrev (setNext s.node prev head) head prev }
      z order count) z
  if pos = head then s
  else
    match left with
    | 0 => cut m.pageCount
    | left + 1 =>
      if nodeValid m s z pos order then validateFrom z order left pos (s.node pos).next s
      else cut (m.pageCount - (left + 1))

/-- `buddy_list_validate`. -/
def validate (z order : ℕ) (s : Pmm) : Pmm :=
  validateFrom m z order m.pageCount (.head z order) (s.node (.head z order)).next s

end AvoryOS.Mm
