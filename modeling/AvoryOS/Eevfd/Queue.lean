import AvoryOS.Rb.Order
import Mathlib.Algebra.Order.Ring.Int

/-!
# The run queues of the scheduler

Each processor has a run queue: a red-black tree of the entities that wait for it, in the order of
their virtual runtime, with the least deadline below each node.  The entity that runs is not in the
tree.

Times are 64-bit words and wrap around; entities and queues are addresses, and `0` is the null
pointer.  The tree node is the first field of an entity, so that both have one address.
-/

namespace AvoryOS.Eevfd

open LinkedTree RedBlack Rb Function

/-! ## Arithmetic -/

def word (z : ℤ) : ℕ := (z % 2 ^ 64).toNat

def int64 (n : ℕ) : ℤ := Int.bmod n (2 ^ 64)

def nice0Weight : ℕ := 1024

def baseSliceNs : ℕ := 3000000

def interactiveSliceNs : ℕ := 1000000

def batchSliceNs : ℕ := 6000000

def calcSliceForNice (nice : ℤ) : ℕ :=
  if nice ≤ -10 then interactiveSliceNs
  else if nice < 0 then interactiveSliceNs + (nice + 10).toNat * 200000
  else if nice = 0 then baseSliceNs
  else if 10 ≤ nice then batchSliceNs
  else baseSliceNs + nice.toNat * 300000

def calcDeltaVruntime (delta weight wmult : ℕ) : ℕ :=
  if weight = nice0Weight then delta
  else if delta ≤ (2 ^ 64 - 1) / 2 ^ 29 then delta * wmult % 2 ^ 64 / 2 ^ 22
  else delta / 2 ^ 10 * wmult % 2 ^ 64 / 2 ^ 12

def calcDeltaSysVtime (delta total : ℕ) : ℕ :=
  if total = 0 then 0
  else if total = nice0Weight then delta
  else (delta * 1024 % 2 ^ 64 + total / 2) % 2 ^ 64 / total

def calcSliceVruntime (slice weight wmult : ℕ) : ℕ := calcDeltaVruntime slice weight wmult

def calcDeadline (vruntime slice weight wmult : ℕ) : ℕ :=
  (vruntime + calcSliceVruntime slice weight wmult) % 2 ^ 64

/-! ## State -/

/-- `struct sched_entity`, but its tree node and its least deadline. -/
structure Entity where
  vruntime : ℕ
  deadline : ℕ
  slice : ℕ
  weight : ℕ
  wmult : ℕ
  lag : ℤ
  execStart : ℕ
  prevSumExec : ℕ
  nice : ℤ
  onRq : Bool
  customSlice : Bool
  criticalDepth : ℕ
  burstExec : ℕ

/-- `struct eevfd_rq`. -/
structure Rq where
  root : ℕ
  leftmost : ℕ
  vtime : ℕ
  totalWeight : ℕ
  nrRunning : ℕ
  minVruntime : ℕ
  curr : ℕ
  currStartExec : ℕ

/-- `eevfd_rq_init`. -/
def Rq.init : Rq := ⟨0, 0, 0, 0, 0, 0, 0, 0⟩

/-- All entities and queues.  `cpu` is the queue of the processor a thread belongs to. -/
structure Sched where
  node : ℕ → Node Color
  minDeadline : ℕ → ℕ
  se : ℕ → Entity
  rq : ℕ → Rq
  cpu : ℕ → ℕ

namespace Sched

def setSe (s : Sched) (x : ℕ) (e : Entity) : Sched := { s with se := update s.se x e }

def setRq (s : Sched) (r : ℕ) (q : Rq) : Sched := { s with rq := update s.rq r q }

def heap (s : Sched) (r : ℕ) : Heap ℕ := ⟨s.node, (s.rq r).root, s.minDeadline⟩

def setHeap (s : Sched) (r : ℕ) (h : Heap ℕ) : Sched :=
  { s with
    node := h.node
    minDeadline := h.aug
    rq := update s.rq r { s.rq r with root := h.root } }

end Sched

/-- A pointer into the upper half of the address space. -/
def ptrSane (p : ℕ) : Bool := 0xFFFF800000000000 ≤ p

/-- The smaller of a deadline and that of a child. -/
def lower (d : ℕ) : Option ℕ → ℕ
  | none => d
  | some c => if c < d then c else d

/-- `eevfd_update_min_deadline`. -/
def updateMinDeadline (se : ℕ → Entity) : Callback ℕ :=
  some fun x l r => lower (lower (se x).deadline l) r

/-- `eevfd_update_min_vruntime`. -/
def updateMinVruntime (r : ℕ) (s : Sched) : Sched :=
  let q := s.rq r
  if q.curr = 0 ∧ q.leftmost = 0 then s
  else
    let minimum := if q.curr ≠ 0 then (s.se q.curr).vruntime else (s.se q.leftmost).vruntime
    let minimum := if q.leftmost ≠ 0 ∧ (s.se q.leftmost).vruntime < minimum then
      (s.se q.leftmost).vruntime else minimum
    let q := if q.minVruntime < minimum then { q with minVruntime := minimum } else q
    let q := if q.vtime < q.minVruntime then { q with vtime := q.minVruntime } else q
    s.setRq r q

/-! ## Into and out of the queue -/

/-- The order of a queue: the virtual runtime, then the deadline, then the address. -/
def goesLeft (se : ℕ → Entity) (x c : ℕ) : Bool :=
  if (se x).vruntime < (se c).vruntime then true
  else if (se c).vruntime < (se x).vruntime then false
  else (se x).deadline < (se c).deadline || ((se x).deadline = (se c).deadline && x < c)

/-- A pass of the loop that looks for the link of a new entity: the node at the link, the node above
it, the side, and whether all sides were left. -/
def descendStep (h : Heap ℕ) (se : ℕ → Entity) (x : ℕ) (st : ℕ × ℕ × Side × Bool) :
    (ℕ × ℕ × Side × Bool) ⊕ (ℕ × Side × Bool) :=
  let (cur, parent, side, leftmost) := st
  if cur = 0 then .inr (parent, side, leftmost)
  else if goesLeft se x cur then .inl (h.child cur .left, cur, .left, leftmost)
  else .inl (h.child cur .right, cur, .right, false)

def unlinked : Node Color := ⟨0, 0, 0, .red⟩

/-- `eevfd_enqueue_entity`. -/
def enqueueEntity (n r x : ℕ) (s : Sched) : Option Sched :=
  if r = 0 ∨ x = 0 ∨ !ptrSane r ∨ !ptrSane x ∨ (s.se x).onRq then some s
  else if s.node x ≠ unlinked then some s
  else do
    let (parent, side, leftmost) ←
      Repeat.run (descendStep (s.heap r) s.se x) n ((s.rq r).root, 0, .left, true)
    let s := { s with minDeadline := update s.minDeadline x (s.se x).deadline }
    let h ← rbInsertAugmented n (updateMinDeadline s.se) x (rbLinkNode x parent side (s.heap r))
    let s := s.setHeap r h
    let s := if leftmost then s.setRq r { s.rq r with leftmost := x } else s
    let s := updateMinVruntime r s
    let q := s.rq r
    let s := s.setRq r { q with
      totalWeight := (q.totalWeight + (s.se x).weight) % 2 ^ 64
      nrRunning := (q.nrRunning + 1) % 2 ^ 32 }
    return s.setSe x { s.se x with onRq := true }

/-- `eevfd_dequeue_entity`. -/
def dequeueEntity (n r x : ℕ) (s : Sched) : Option Sched :=
  if r = 0 ∨ x = 0 ∨ !ptrSane r ∨ !ptrSane x ∨ !(s.se x).onRq then some s
  else do
    let s := s.setSe x { s.se x with
      lag := Int.bmod (int64 (s.rq r).vtime - int64 (s.se x).vruntime) (2 ^ 64) }
    let s ← if (s.rq r).leftmost = x then do
        let next ← rbNext n (s.heap r) x
        some (s.setRq r { s.rq r with leftmost := next })
      else some s
    let h ← rbEraseAugmented n (updateMinDeadline s.se) x (s.heap r)
    let s := s.setHeap r h
    let q := s.rq r
    let s := s.setRq r { q with
      totalWeight := (q.totalWeight + 2 ^ 64 - (s.se x).weight) % 2 ^ 64
      nrRunning := (q.nrRunning + 2 ^ 32 - 1) % 2 ^ 32 }
    let s := s.setSe x { s.se x with onRq := false }
    let s := { s with node := update s.node x unlinked }
    return updateMinVruntime r s

/-! ## The entity that runs -/

/-- `eevfd_update_curr`. -/
def updateCurr (r now : ℕ) (s : Sched) : Sched :=
  let q := s.rq r
  if r = 0 ∨ q.curr = 0 then s
  else
    let c := s.se q.curr
    if c.execStart = 0 then s.setSe q.curr { c with execStart := now }
    else if now ≤ c.execStart then s
    else
      let delta := now - c.execStart
      let burst := c.burstExec + (delta + 999) % 2 ^ 64 / 1000
      let c := { c with
        execStart := now
        prevSumExec := (c.prevSumExec + delta) % 2 ^ 64
        burstExec := if 2 ^ 16 - 1 < burst then 2 ^ 16 - 1 else burst }
      let c := if !c.customSlice ∧ c.criticalDepth = 0 ∧
          calcSliceForNice c.nice ≤ c.burstExec * 4000 then
        { c with slice := calcSliceForNice c.nice } else c
      let c := { c with
        vruntime := (c.vruntime + calcDeltaVruntime delta c.weight c.wmult) % 2 ^ 64 }
      let active := (q.totalWeight + if c.onRq then 0 else c.weight) % 2 ^ 64
      let vtime := (q.vtime + calcDeltaSysVtime delta active) % 2 ^ 64
      let c := { c with lag := Int.bmod (int64 vtime - int64 c.vruntime) (2 ^ 64) }
      let s := s.setSe q.curr c
      let least := if q.leftmost ≠ 0 ∧ (s.se q.leftmost).vruntime < c.vruntime then
        (s.se q.leftmost).vruntime else c.vruntime
      let minVruntime := if q.minVruntime < least then least else q.minVruntime
      s.setRq r { q with
        minVruntime
        vtime := if vtime < minVruntime then minVruntime else vtime }

/-- `eevfd_set_next_entity`. -/
def setNextEntity (n r x : ℕ) (s : Sched) : Option Sched :=
  if r = 0 ∨ x = 0 then some s
  else do
    let s := s.setRq r { s.rq r with curr := x }
    let s ← dequeueEntity n r x s
    let s := s.setRq r { s.rq r with currStartExec := (s.se x).prevSumExec }
    return s.setSe x { s.se x with execStart := 0 }

/-- `eevfd_put_prev_entity`. -/
def putPrevEntity (r x : ℕ) (s : Sched) : Sched :=
  if r = 0 ∨ x = 0 then s
  else
    let s := s.setSe x { s.se x with execStart := 0 }
    if (s.rq r).curr = x then s.setRq r { s.rq r with curr := 0 } else s

def boundLag (slice : ℕ) (lag : ℤ) : ℤ :=
  if lag < -int64 slice then -int64 slice
  else if int64 slice < lag then int64 slice
  else lag

/-- `eevfd_migrate_entity`. -/
def migrateEntity (src dst x : ℕ) (s : Sched) : Sched :=
  if x = 0 ∨ dst = 0 then s
  else
    let e := s.se x
    let d := s.rq dst
    let slice := calcSliceVruntime e.slice e.weight e.wmult
    let lag := if src ≠ 0 ∧ 0 < (s.rq src).vtime then
      Int.bmod (int64 (s.rq src).vtime - int64 e.vruntime) (2 ^ 64) else 0
    let lag := boundLag slice lag
    let vruntime := if lag ≤ int64 d.vtime then word (int64 d.vtime - lag) else 0
    let vruntime := if vruntime < d.minVruntime then d.minVruntime else vruntime
    let deadline := calcDeadline vruntime e.slice e.weight e.wmult
    let s := s.setSe x { e with lag, vruntime, deadline }
    { s with minDeadline := update s.minDeadline x deadline }

/-! ## The next entity -/

/-- `__pick_eevfd_candidate`: the best entity so far, and below a node. -/
def pickCandidate (h : Heap ℕ) (se : ℕ → Entity) (vtime : ℕ) : ℕ → ℕ → ℕ → Option ℕ
  | 0, _, _ => none
  | n + 1, node, best =>
    if node = 0 then some best
    else if best ≠ 0 ∧ (se best).deadline ≤ h.aug node then some best
    else
      let left := if h.child node .left ≠ 0 then
          pickCandidate h se vtime n (h.child node .left) best
        else some best
      left.bind fun best =>
        if (se node).vruntime ≤ vtime then
          let best := if best = 0 ∨ (se node).deadline < (se best).deadline then node else best
          if h.child node .right ≠ 0 then
            pickCandidate h se vtime n (h.child node .right) best
          else some best
        else some best

/-- `eevfd_pick_next_entity`. -/
def pickNextEntity (n r : ℕ) (s : Sched) : Option (ℕ × Sched) :=
  let q := s.rq r
  if r = 0 ∨ q.root = 0 then some (0, s)
  else if q.nrRunning = 1 ∧ q.leftmost ≠ 0 then some (q.leftmost, s)
  else if q.leftmost ≠ 0 ∧ (s.se q.leftmost).vruntime ≤ q.vtime ∧
      (s.se q.leftmost).deadline ≤ s.minDeadline q.root then some (q.leftmost, s)
  else do
    let best := if q.leftmost ≠ 0 ∧ (s.se q.leftmost).vruntime ≤ q.vtime then q.leftmost else 0
    let best ← pickCandidate (s.heap r) s.se q.vtime n q.root best
    if best = 0 ∧ q.leftmost ≠ 0 then
      if q.vtime < (s.se q.leftmost).vruntime then
        some (q.leftmost, s.setRq r { q with vtime := (s.se q.leftmost).vruntime })
      else some (q.leftmost, s)
    else some (best, s)

end AvoryOS.Eevfd
