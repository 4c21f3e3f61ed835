import AvoryOS.Mm.History

/-!
# Caches and references

Single frames go through small stacks, one for each CPU, and through pools of frames that idle
CPUs have zeroed.  A frame in a cache is taken as far as the zones know and has no reference; it
gets its first one when it is handed out, and goes back into a cache when the last one goes.

The stacks are lists with the top first.  Every operation is atomic: the locks are left out.
-/

namespace AvoryOS.Mm

open Function

/-- `MAX_CPUS`. -/
def maxCpus : ℕ := 64

/-- `PCP_CAPACITY`. -/
def pcpCapacity : ℕ := 128

/-- `PCP_BATCH`. -/
def pcpBatch : ℕ := 32

/-- `ZERO_POOL_CAP`. -/
def zeroPoolCap : ℕ := 128

/-- `MAX_NUMA_NODES`. -/
def maxNumaNodes : ℕ := 16

structure Numa where
  /-- `numa_phys_to_node`. -/
  physToNode : ℕ → ℕ
  /-- `numa_cpu_to_node`. -/
  cpuToNode : ℕ → ℕ
  online : ℕ → Bool
  /-- The entries of `fallback_order` other than `NUMA_NO_NODE`. -/
  fallbackOrder : ℕ → List ℕ

/-- `numa_get_node`. -/
def Numa.getNode (numa : Numa) (node : ℕ) : ℕ :=
  if maxNumaNodes ≤ node ∨ numa.online node = false then 0 else node

/-- The zone to which a frame is given back. -/
def Numa.zoneOf (numa : Numa) (phys : ℕ) : ℕ := numa.getNode (numa.physToNode phys)

/-- The frames, the zones and the caches. -/
structure Caches where
  pmm : Pmm
  /-- `pcp_caches`, by CPU. -/
  pcp : ℕ → List ℕ
  /-- `zero_pool`, by CPU. -/
  zero : ℕ → List ℕ
  pcpInitialized : Bool
  /-- `pmm_zero_page_phys`. -/
  zeroPage : ℕ

namespace Caches

def setPcp (st : Caches) (c : ℕ) (l : List ℕ) : Caches :=
  { st with pcp := update st.pcp c l }

def setZero (st : Caches) (c : ℕ) (l : List ℕ) : Caches :=
  { st with zero := update st.zero c l }

def setRef (st : Caches) (phys v : ℕ) : Caches :=
  { st with pmm := { st.pmm with
      refcounts := update st.pmm.refcounts (phys / pageSize) v } }

end Caches

/-- The CPU that runs, if it is known and has a cache. -/
def ownCpu (cpu : Option ℕ) : Option ℕ := cpu.filter fun c => decide (c < maxCpus)

section

variable (m : Machine) (numa : Numa)

/-! ## Caches of the CPUs -/

/-- A batch for a cache from one zone; `n` frames remain. -/
def refill (z : ℕ) : ℕ → Caches → List ℕ → Caches × List ℕ
  | 0, st, cache => (st, cache)
  | n + 1, st, cache =>
    match allocPageLocked m st.pmm z with
    | (none, s) => ({ st with pmm := s }, cache)
    | (some a, s) => refill z n (Caches.setRef { st with pmm := s } a 0) (a :: cache)

/-- The zones to fall back to, until one gives a frame. -/
def refillFallback (node : ℕ) : List ℕ → Caches → Caches × List ℕ
  | [], st => (st, [])
  | alt :: rest, st =>
    let z := numa.getNode alt
    if alt = node ∨ numa.online z = false then refillFallback node rest st
    else
      match refill m z pcpBatch st [] with
      | (st, []) => refillFallback node rest st
      | r => r

/-- `pmm_pcp_alloc_page`. -/
def pcpAllocPage (cpu : Option ℕ) (st : Caches) : Option ℕ × Caches :=
  if st.pcpInitialized = false then (none, st)
  else
    match ownCpu cpu with
    | none => (none, st)
    | some c =>
      match st.pcp c with
      | a :: rest => (some a, (st.setPcp c rest).setRef a 1)
      | [] =>
        let node := numa.cpuToNode c
        let z := numa.getNode node
        let r := match refill m z pcpBatch st [] with
          | (st, []) => refillFallback m numa node (numa.fallbackOrder z) st
          | r => r
        match r with
        | (st, []) => (none, st)
        | (st, a :: rest) => (some a, (st.setPcp c rest).setRef a 1)

def giveBack (st : Caches) (frames : List ℕ) : Caches :=
  frames.foldl (fun st a =>
    { st with pmm := freeInternal m st.pmm (numa.zoneOf a) a 0 }) st

/-- `pmm_pcp_free_page`. -/
def pcpFreePage (cpu : Option ℕ) (st : Caches) (ptr : ℕ) : Bool × Caches :=
  if st.pcpInitialized = false ∨ ptr = 0 then (false, st)
  else
    match ownCpu cpu with
    | none => (false, st)
    | some c =>
      if (st.pcp c).length < pcpCapacity then (true, st.setPcp c (ptr :: st.pcp c))
      else
        (true, giveBack m numa (st.setPcp c (ptr :: (st.pcp c).drop pcpBatch))
          ((st.pcp c).take pcpBatch))

/-- The cache of a CPU is emptied, the oldest frame first. -/
def drain (c : ℕ) (st : Caches) : Caches := giveBack m numa (st.setPcp c []) (st.pcp c).reverse

/-- `pmm_pcp_drain_local`. -/
def pcpDrainLocal (cpu : Option ℕ) (st : Caches) : Caches :=
  if st.pcpInitialized = false then st
  else
    match ownCpu cpu with
    | none => st
    | some c => drain m numa c st

/-! ## Zeroed frames -/

/-- `pmm_alloc_zeroed_page`. -/
def allocZeroedPage (cpu : Option ℕ) (st : Caches) : Option ℕ × Caches :=
  match ownCpu cpu with
  | none => (none, st)
  | some c =>
    match st.zero c with
    | a :: rest => (some a, (st.setZero c rest).setRef a 1)
    | [] => (none, st)

/-- Up to `n` frames from the cache of the CPU. -/
def collect (cpu : Option ℕ) : ℕ → Caches → List ℕ × Caches
  | 0, st => ([], st)
  | n + 1, st =>
    match pcpAllocPage m numa cpu st with
    | (none, st) => ([], st)
    | (some a, st) =>
      let (rest, st) := collect cpu n st
      (a :: rest, st)

/-- The first words of a frame are zeroed with the rest, and its reference goes. -/
def zeroFrame (st : Caches) (a : ℕ) : Caches :=
  let p := a / pageSize
  let s := st.pmm
  { st with pmm := { s with
      node := update s.node (.page p) ⟨.wild, .wild⟩
      order := update s.order p 0
      magic := update s.magic p 0
      refcounts := update s.refcounts p 0 } }

def putBack (cpu : Option ℕ) (st : Caches) (frames : List ℕ) : Caches :=
  frames.foldl (fun st a => (pcpFreePage m numa cpu st a).2) st

/-- The loop of `pmm_zero_pool_refill`; a round that fills nothing ends it, so `maxPages` rounds
are enough. -/
def refillRounds (cpu : Option ℕ) (c : ℕ) : ℕ → ℕ → Caches → Caches
  | 0, _, st => st
  | n + 1, maxPages, st =>
    if maxPages = 0 then st
    else
      let (got, st) := collect m numa cpu (min maxPages 32) st
      if got = [] then st
      else
        let st := got.foldl zeroFrame st
        let toAdd := min got.length (zeroPoolCap - (st.zero c).length)
        let st := st.setZero c ((got.take toAdd).reverse ++ st.zero c)
        let st := putBack m numa cpu st (got.drop toAdd)
        if toAdd < got.length then st
        else refillRounds cpu c n (maxPages - got.length) st

/-- `pmm_zero_pool_refill`. -/
def zeroPoolRefill (cpu : Option ℕ) (maxPages : ℕ) (st : Caches) : Caches :=
  match ownCpu cpu with
  | none => st
  | some c => refillRounds m numa cpu c maxPages maxPages st

/-- One pool is emptied into the cache of the CPU that runs. -/
def drainPool (cpu : Option ℕ) (st : Caches) (c : ℕ) : Caches :=
  let frames := if (st.zero c).length ≤ zeroPoolCap then (st.zero c).reverse else []
  putBack m numa cpu (st.setZero c []) frames

/-- `pmm_zero_pool_drain_all`. -/
def zeroPoolDrainAll (cpu : Option ℕ) (st : Caches) : Caches :=
  (List.range maxCpus).foldl (drainPool m numa cpu) st

/-- `pmm_pcp_drain_all`. -/
def pcpDrainAll (cpu : Option ℕ) (st : Caches) : Caches :=
  if st.pcpInitialized = false then st
  else
    (List.range maxCpus).foldl (fun st c => drain m numa c st) (zeroPoolDrainAll m numa cpu st)

/-- `pmm_pcp_init`. -/
def pcpInit (st : Caches) : Caches := { st with pcp := fun _ => [], pcpInitialized := true }

/-! ## References -/

/-- `UINT16_MAX`, the count of a frame that is never freed. -/
def pinned : ℕ := 65535

/-- `pmm_put_ref`: whether the last reference has gone. -/
def putRef (st : Caches) (phys : ℕ) : Bool × Caches :=
  let old := st.pmm.refcounts (phys / pageSize)
  if old = 0 ∨ old = pinned then (false, st)
  else (decide (old = 1), st.setRef phys (old - 1))

/-- The checks that `pmm_incref` and `pmm_decref` begin with. -/
def countable (st : Caches) (ptr : ℕ) : Bool :=
  decide (ptr ≠ 0 ∧ ptr ≠ st.zeroPage ∧ ptr % pageSize = 0) && isManaged m st.pmm (ptr / pageSize)

/-- `pmm_incref`. -/
def incref (st : Caches) (ptr : ℕ) : Caches :=
  if countable m st ptr = false then st
  else
    let old := st.pmm.refcounts (ptr / pageSize)
    if old = pinned ∨ old = 0 ∨ old = pinned - 1 then st else st.setRef ptr (old + 1)

/-- `pmm_decref`. -/
def decref (cpu : Option ℕ) (st : Caches) (ptr : ℕ) : Caches :=
  if countable m st ptr = false then st
  else
    match putRef st ptr with
    | (false, st) => st
    | (true, st) =>
      if st.pmm.bitmap (ptr / pageSize) = false then st
      else
        match pcpFreePage m numa cpu st ptr with
        | (true, st) => st
        | (false, st) =>
          { st with pmm := freeInternal m st.pmm (numa.zoneOf ptr) ptr 0 }

def releaseFrame (z : ℕ) (st : Caches) (phys : ℕ) : Caches :=
  match putRef st phys with
  | (false, st) => st
  | (true, st) =>
    if st.pmm.bitmap (phys / pageSize) = false then st
    else { st with pmm := freeInternal m st.pmm z phys 0 }

/-- `pmm_free_pages`. -/
def freePages (st : Caches) (addr count : ℕ) : Caches :=
  let order := getOrder count
  let numPages := 2 ^ order
  let pfn := addr / pageSize
  let pages := (List.range numPages).map fun i => addr + i * pageSize
  let node := numa.physToNode addr
  if addr = 0 ∨ count = 0 ∨ addr = st.zeroPage ∨ maxOrder ≤ order then st
  else if pfn < m.lowest ∨ m.highest ≤ pfn ∨ m.highest - pfn < numPages ∨
      addr % (numPages * pageSize) ≠ 0 then st
  else if pages.all (fun a => isManaged m st.pmm (a / pageSize)) = false then st
  else if pages.all (fun a => decide (numa.physToNode a = node)) = false then st
  else pages.foldl (releaseFrame m (numa.getNode node)) st

end

end AvoryOS.Mm
