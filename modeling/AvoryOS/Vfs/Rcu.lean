import AvoryOS.Lib.Transition
import Mathlib.Algebra.BigOperators.Group.Finset.Basic
import Mathlib.Algebra.BigOperators.Fin
import Mathlib.Data.Fintype.Basic
import Mathlib.Logic.Function.Basic
import Mathlib.Tactic.Common

/-!
# Deferred reclamation of vnodes

A lookup without the lock loads a vnode from a cache entry and takes its reference
afterwards.  In between it has only the address.  The last `vfs_close` of a vnode therefore
puts it into a queue, and the vnode is freed after a grace period: the drainer arms a flag
for every other processor, sends it an interrupt, and waits until the handler has cleared
the flag.

The model has the pointers of the cache entries, the reference counts, what `vfs_close` and
`vfs_node_retire` do with a count of zero, threads that are switched while interrupts are
enabled, and any number of drainers.  The header of the engine says that a lookup runs with
interrupts disabled; the lookups do not disable them, so whether they are is part of the
state here.

An address is not used again after it was freed.  `held` counts the references that threads
own; it is not part of the code.
-/

namespace AvoryOS.Vfs.Rcu

open Function Option Finset Bool
open Transition (guard_eq_some)

abbrev Vnode := ℕ
abbrev Thread := ℕ
abbrev Cpu := ℕ

inductive Fate
  | fresh
  | live
  /-- A close or a retire has claimed the teardown. -/
  | closing
  | queued
  | batched (d : Thread)
  /-- To be freed at once, because the engine was not up. -/
  | doomed
  | freed
  deriving DecidableEq

inductive Phase
  | idle
  | detached
  /-- `self_id` has been read. -/
  | noted (self : Cpu)
  | arming (self : Cpu) (todo pending : List Cpu)
  | sending (todo pending : List Cpu)
  | waiting (pending : List Cpu)
  | reclaiming
  deriving DecidableEq

/-- The processors that `cpu_get_info` knows, and which vnodes are persistent. -/
structure Machine where
  cpus : List Cpu
  lapic : Bool
  persistent : Vnode → Bool
  /-- Without a local APIC there is one processor. -/
  single : lapic = false → cpus.length ≤ 1

structure State (ι : Type) where
  /-- The pointers in cache entries; each owns a reference. -/
  slots : ι → Option Vnode
  refs : Vnode → ℕ
  held : Vnode → ℕ
  /-- How many closes or retires have seen a count of zero and not tried to claim yet. -/
  zeros : Vnode → ℕ
  deleted : Vnode → Bool
  fate : Vnode → Fate
  up : Bool
  /-- The address a lookup has loaded and not finished with. -/
  reader : Thread → Option Vnode
  running : Cpu → Option Thread
  masked : Cpu → Bool
  online : Cpu → Bool
  ipi : Cpu → Bool
  ack : Cpu → Bool
  phase : Thread → Phase
  barrier : Option Thread

inductive Act (ι : Type)
  | alloc (n : Vnode)
  | ref (n : Vnode)
  | install (i : ι) (n : Vnode)
  | clear (i : ι)
  | unref (n : Vnode)
  | retire (n : Vnode)
  | handOut (n : Vnode)
  | claim (n : Vnode)
  | release (n : Vnode)
  | reclaimNow (n : Vnode)
  | online (c : Cpu)
  | switch (c : Cpu) (t : Thread)
  | mask (c : Cpu)
  | unmask (c : Cpu)
  | isr (c : Cpu)
  | poll (c : Cpu)
  | load (t : Thread) (c : Cpu) (i : ι)
  | tryref (t : Thread)
  | leave (t : Thread)
  | init
  | detach (d : Thread)
  | alone (d : Thread) (c : Cpu)
  | note (d : Thread) (c : Cpu)
  | acquire (d : Thread)
  | arm (d : Thread)
  | armed (d : Thread)
  | send (d : Thread)
  | sent (d : Thread)
  | check (d : Thread) (c : Cpu)
  | acked (d : Thread)
  | reclaim (d : Thread) (n : Vnode)
  | done (d : Thread)

variable {n : Vnode} {zeros : Vnode → ℕ} {ipi ack : Cpu → Bool} {c : Cpu} {t : Thread}

section
variable {ι : Type} (m : Machine)

/-- A pointer leaves an entry, and the thread that replaced it has its reference. -/
def State.evict (s : State ι) (i : ι) : Vnode → ℕ :=
  match s.slots i with
  | none => s.held
  | some n => update s.held n (s.held n + 1)

/-- The thread that runs on a processor is not in the middle of a lookup. -/
def State.quiet (s : State ι) (c : Cpu) : Bool :=
  match s.running c with
  | none => true
  | some t => (s.reader t).isNone

def State.Waiting (s : State ι) (t : Thread) : Prop := ∀ c ∈ m.cpus, s.running c ≠ some t

instance (s : State ι) (t : Thread) : Decidable (s.Waiting m t) :=
  inferInstanceAs (Decidable (∀ c ∈ m.cpus, s.running c ≠ some t))

/-- `release_node` of `vfs_close`; a retired vnode is deleted. -/
def State.released (s : State ι) (n : Vnode) : Bool := !m.persistent n || s.deleted n

def State.move (s : State ι) (d : Thread) (p : Phase) : State ι :=
  { s with phase := update s.phase d p }

/-- What becomes of a vnode whose count is zero and whose teardown is claimed. -/
def State.fateOf (s : State ι) (n : Vnode) : Fate :=
  if s.released m n = false then .live else if s.up then .queued else .doomed

def step [DecidableEq ι] (s : State ι) : Act ι → Option (State ι)
  | .alloc n =>
    if s.fate n = .fresh then
      some { s with
        refs := update s.refs n 1
        held := update s.held n 1
        zeros := update s.zeros n 0
        fate := update s.fate n .live }
    else none
  | .ref n =>
    if 0 < s.held n then
      some { s with
        refs := update s.refs n (s.refs n + 1)
        held := update s.held n (s.held n + 1) }
    else none
  | .install i n =>
    if 0 < s.held n then
      let held := s.evict i
      some { s with
        slots := update s.slots i (some n)
        held := update held n (held n - 1) }
    else none
  | .clear i => some { s with slots := update s.slots i none, held := s.evict i }
  | .unref n =>
    if 0 < s.held n then
      some { s with
        refs := update s.refs n (s.refs n - 1)
        held := update s.held n (s.held n - 1)
        zeros := if s.refs n = 1 then update s.zeros n (s.zeros n + 1) else s.zeros }
    else none
  | .retire n =>
    some { s with
      deleted := update s.deleted n true
      zeros := if s.refs n = 0 then update s.zeros n (s.zeros n + 1) else s.zeros }
  -- the lookup of a filesystem that keeps its vnodes
  | .handOut n =>
    if m.persistent n ∧ s.deleted n = false ∧ (s.fate n = .live ∨ s.fate n = .closing) then
      some { s with
        refs := update s.refs n (s.refs n + 1)
        held := update s.held n (s.held n + 1) }
    else none
  | .claim n =>
    if 0 < s.zeros n then
      some { s with
        zeros := update s.zeros n (s.zeros n - 1)
        fate := if s.fate n = .live then update s.fate n .closing else s.fate }
    else none
  | .release n =>
    if s.fate n = .closing then
      some { s with fate := update s.fate n (s.fateOf m n) }
    else none
  | .reclaimNow n =>
    if s.fate n = .doomed then some { s with fate := update s.fate n .freed } else none
  | .online c =>
    if c ∈ m.cpus then some { s with online := update s.online c true } else none
  -- preemption needs interrupts, and a lookup does not yield
  | .switch c t =>
    if s.online c ∧ c ∈ m.cpus ∧ (s.masked c = false ∨ s.quiet c) ∧ s.Waiting m t then
      some { s with running := update s.running c (some t) }
    else none
  | .mask c => some { s with masked := update s.masked c true }
  -- a lookup does not enable interrupts
  | .unmask c =>
    if s.quiet c then some { s with masked := update s.masked c false } else none
  | .isr c =>
    if s.masked c = false ∧ s.ipi c then
      some { s with ipi := update s.ipi c false, ack := update s.ack c false }
    else none
  -- a thread that waits for a lock with interrupts disabled
  | .poll c =>
    if s.masked c ∧ s.quiet c then some { s with ack := update s.ack c false } else none
  | .load t c i =>
    if s.up ∧ s.running c = some t ∧ c ∈ m.cpus ∧ s.reader t = none then
      (s.slots i).map fun n => { s with reader := update s.reader t (some n) }
    else none
  | .tryref t =>
    (s.reader t).map fun n =>
      if s.refs n = 0 then { s with reader := update s.reader t none }
      else { s with
        reader := update s.reader t none
        refs := update s.refs n (s.refs n + 1)
        held := update s.held n (s.held n + 1) }
  | .leave t => some { s with reader := update s.reader t none }
  | .init => some { s with up := true }
  | .detach d =>
    if s.phase d = .idle ∨ s.phase d = .detached then
      let fate n := if s.fate n = .queued then .batched d else s.fate n
      some { s.move d .detached with fate }
    else none
  | .alone d c =>
    if s.phase d = .detached ∧ s.running c = some d ∧ s.reader d = none ∧ c ∈ m.cpus ∧
        (m.cpus.length ≤ 1 ∨ m.lapic = false) then
      some (s.move d .reclaiming)
    else none
  | .note d c =>
    if s.phase d = .detached ∧ s.running c = some d ∧ s.reader d = none then
      some (s.move d (.noted c))
    else none
  | .acquire d =>
    match s.phase d with
    | .noted self =>
      if s.barrier = none then
        some { s.move d (.arming self m.cpus []) with barrier := some d }
      else none
    | _ => none
  | .arm d =>
    match s.phase d with
    | .arming self (c :: todo) pending =>
      if c ≠ self ∧ s.online c then
        some { s.move d (.arming self todo (c :: pending)) with
          ack := update s.ack c true }
      else some (s.move d (.arming self todo pending))
    | _ => none
  | .armed d =>
    match s.phase d with
    | .arming _ [] [] => some { s.move d .reclaiming with barrier := none }
    | .arming _ [] (c :: pending) => some (s.move d (.sending (c :: pending) (c :: pending)))
    | _ => none
  | .send d =>
    match s.phase d with
    | .sending (c :: todo) pending =>
      some { s.move d (.sending todo pending) with ipi := update s.ipi c true }
    | _ => none
  | .sent d =>
    match s.phase d with
    | .sending [] pending => some (s.move d (.waiting pending))
    | _ => none
  | .check d c =>
    match s.phase d with
    | .waiting pending =>
      if s.ack c = false then some (s.move d (.waiting (pending.filter (· ≠ c)))) else none
    | _ => none
  | .acked d =>
    match s.phase d with
    | .waiting [] => some { s.move d .reclaiming with barrier := none }
    | _ => none
  | .reclaim d n =>
    if s.phase d = .reclaiming ∧ s.fate n = .batched d then
      some { s with fate := update s.fate n .freed }
    else none
  | .done d => if s.phase d = .reclaiming then some (s.move d .idle) else none

/-! ## The invariant -/

variable [Fintype ι]

def pointers (slots : ι → Option Vnode) (n : Vnode) : ℕ :=
  ∑ i, (decide (slots i = some n)).toNat

/-- A thread with the address runs on the processor with interrupts disabled. -/
def State.InSection (s : State ι) (c : Cpu) (n : Vnode) : Prop :=
  ∃ t, s.running c = some t ∧ s.masked c = true ∧ s.reader t = some n

/-- Which processors a drainer has still to hear from. -/
def Phase.Awaits (ack : Cpu → Bool) (c : Cpu) : Phase → Prop
  | .idle | .detached => True
  | .noted self => c ≠ self
  | .arming self todo pending => (c ∈ todo ∧ c ≠ self) ∨ (c ∈ pending ∧ ack c = true)
  | .sending _ pending | .waiting pending => c ∈ pending ∧ ack c = true
  | .reclaiming => False

structure Inv (s : State ι) : Prop where
  counted : ∀ n, s.refs n = pointers s.slots n + s.held n
  zero : ∀ n, s.fate n ≠ .live ∨ 0 < s.zeros n → s.refs n = 0
  /-- A lookup with an address is not interrupted. -/
  sections : ∀ t n, s.reader t = some n → ∃ c, s.running c = some t ∧ s.masked c = true
  unique : ∀ c c' t, s.running c = some t → s.running c' = some t → c = c'
  online : ∀ c t, s.running c = some t → s.online c = true ∧ c ∈ m.cpus
  /-- Without the engine there are no such lookups. -/
  down : s.up = false → ∀ t, s.reader t = none
  gone : ∀ t n, s.reader t = some n → s.fate n ≠ .doomed
  /-- A drainer has still to hear from every processor with the address of one of its vnodes. -/
  grace : ∀ d n c, s.fate n = .batched d → s.InSection c n → (s.phase d).Awaits s.ack c

variable {m} {s : State ι}

theorem pointers_update [DecidableEq ι] (slots : ι → Option Vnode) (i : ι) (p : Option Vnode)
    (n : Vnode) :
    pointers (update slots i p) n + (decide (slots i = some n)).toNat =
      pointers slots n + (decide (p = some n)).toNat := by
  have h (f : ι → Option Vnode) := add_sum_erase univ
    (fun j => (decide (f j = some n)).toNat) (mem_univ i)
  have hrest : ∑ j ∈ univ.erase i, (decide (update slots i p j = some n)).toNat =
      ∑ j ∈ univ.erase i, (decide (slots j = some n)).toNat :=
    sum_congr rfl fun j hj => by rw [update_of_ne (ne_of_mem_erase hj)]
  have h1 := h slots
  have h2 := h (update slots i p)
  simp only [update_self] at h2
  rw [pointers, pointers]
  omega

omit [Fintype ι] in
theorem State.evict_apply (s : State ι) (i : ι) (n : Vnode) :
    s.evict i n = s.held n + (decide (s.slots i = some n)).toNat := by
  rw [State.evict]
  cases s.slots i with
  | none => simp
  | some k =>
    by_cases hk : k = n
    · subst hk
      simp
    · simp [update_of_ne (Ne.symm hk), hk]

theorem Inv.refs_of_slot [DecidableEq ι] (h : Inv m s) {i : ι} (hi : s.slots i = some n) :
    s.refs n ≠ 0 := by
  have h1 := pointers_update s.slots i none n
  have h2 := h.counted n
  simp only [hi, decide_true, toNat_true] at h1
  simp only [reduceCtorEq, decide_false, toNat_false] at h1
  omega

theorem Inv.memory (h : Inv m s) {slots : ι → Option Vnode} {refs held : Vnode → ℕ}
    {deleted : Vnode → Bool} {fate : Vnode → Fate} (hc : ∀ n, refs n = pointers slots n + held n)
    (hz : ∀ n, fate n ≠ .live ∨ 0 < zeros n → refs n = 0)
    (hd : ∀ n, fate n = .doomed → s.fate n = .doomed ∨ s.up = false)
    (hb : ∀ n d, fate n = .batched d → s.fate n = .batched d) :
    Inv m { s with slots, refs, held, zeros, deleted, fate } where
  __ := h
  counted := hc
  zero := hz
  gone t n hr hf := by
    obtain hf | hu := hd n hf
    · exact h.gone t n hr hf
    · exact absurd ((h.down hu t).symm.trans hr) (by simp)
  grace d n c hf hs := h.grace d n c (hb n d hf) hs

variable {barrier : Option Thread}

/-- A step of the processors and the drainers.  The sections are not more than before, and every
drainer still awaits the processors of those that remain. -/
theorem Inv.processors (h : Inv m s) {reader : Thread → Option Vnode}
    {running : Cpu → Option Thread} {masked online : Cpu → Bool} {phase : Thread → Phase}
    (hr : ∀ t n, reader t = some n → s.reader t = some n)
    (hm : ∀ t n, reader t = some n → ∃ c, running c = some t ∧ masked c = true)
    (hu : ∀ c c' t, running c = some t → running c' = some t → c = c')
    (ho : ∀ c t, running c = some t → online c = true ∧ c ∈ m.cpus)
    (hg : ∀ d n c t, running c = some t → masked c = true → reader t = some n →
      s.InSection c n ∧ ((s.phase d).Awaits s.ack c → (phase d).Awaits ack c)) :
    Inv m { s with reader, running, masked, online, ipi, ack, phase, barrier } where
  counted := h.counted
  zero := h.zero
  sections := hm
  unique := hu
  online := ho
  down e t := by
    cases hn : reader t with
    | none => exact hn
    | some n => exact absurd ((h.down e t).symm.trans (hr t n hn)) (by simp)
  gone t n hn := h.gone t n (hr t n hn)
  grace d n c hf hs := by
    obtain ⟨t, h1, h2, h3⟩ := hs
    obtain ⟨hs, ha⟩ := hg d n c t h1 h2 h3
    exact ha (h.grace d n c hf hs)

omit [Fintype ι] in
/-- No lookup has an address on a processor that takes interrupts, or is not in a lookup. -/
theorem State.not_inSection (hq : s.masked c = false ∨ s.quiet c = true) : ¬s.InSection c n := by
  rintro ⟨t, ht, hm, hr⟩
  simp [State.quiet, ht, hm, hr] at hq

theorem Phase.Awaits.mono {p : Phase} {ack' : Cpu → Bool}
    (ha : ack c = true → ack' c = true) (h : p.Awaits ack c) : p.Awaits ack' c := by
  cases p with
  | idle | detached | noted | reclaiming => exact h
  | arming self todo pending => exact h.imp_right fun h => ⟨h.1, ha h.2⟩
  | sending todo pending | waiting pending => exact ⟨h.1, ha h.2⟩

theorem update_true {f : Cpu → Bool} (c : Cpu) {c' : Cpu} (h : f c' = true) :
    update f c true c' = true := by
  simp [update_apply, h]

variable {d : Thread}

/-- A step of one drainer, which may arm processors. -/
theorem Inv.drainer (h : Inv m s) {p p' : Phase} (hph : s.phase d = p)
    (ha : ∀ c, s.ack c = true → ack c = true)
    (hp : ∀ n c, s.InSection c n → p.Awaits s.ack c → p'.Awaits ack c) :
    Inv m { s with ipi, ack, phase := update s.phase d p', barrier } := by
  refine h.processors (fun _ _ hr => hr) h.sections h.unique h.online fun d' n c t h1 h2 h3 => ?_
  refine ⟨⟨t, h1, h2, h3⟩, fun hw => ?_⟩
  by_cases hd : d' = d
  · subst hd
    rw [update_self]
    exact hp n c ⟨t, h1, h2, h3⟩ (hph ▸ hw)
  · rw [update_of_ne hd]
    exact hw.mono (ha c)

theorem Inv.finish (h : Inv m s) (t : Thread) :
    Inv m { s with reader := update s.reader t none } := by
  have hr : ∀ u n, update s.reader t none u = some n → s.reader u = some n := by
    intro u n hu
    by_cases hut : u = t
    · rw [hut] at hu
      simp at hu
    · rwa [update_of_ne hut] at hu
  exact h.processors hr (fun u n hu => h.sections u n (hr u n hu)) h.unique h.online
    fun d n c u h1 h2 h3 => ⟨⟨u, h1, h2, hr u n h3⟩, id⟩

/-- A thread that has references takes or gives back one. -/
theorem Inv.counts (h : Inv m s) {r k : ℕ} (hr : r + s.held n = s.refs n + k)
    (hz : ∀ q, 0 < zeros q → q ≠ n → 0 < s.zeros q) (hn : s.fate n ≠ .live ∨ 0 < zeros n → r = 0) :
    Inv m { s with
      refs := update s.refs n r
      held := update s.held n k
      zeros } := by
  refine h.memory (fun q => ?_) (fun q hq => ?_) (fun _ hd => .inl hd) fun _ _ hb => hb
  · have := h.counted q
    by_cases hqn : q = n
    · subst hqn
      rw [update_self, update_self]
      omega
    · rwa [update_of_ne hqn, update_of_ne hqn]
  by_cases hqn : q = n
  · subst hqn
    rw [update_self]
    exact hn hq
  · rw [update_of_ne hqn]
    exact h.zero q (hq.imp_right fun hq => hz q hq hqn)

/-- The vnode of a reference is live, and nobody saw its count at zero. -/
theorem Inv.live_of_held (h : Inv m s) (hn : 0 < s.held n) : s.fate n = .live ∧ s.zeros n = 0 := by
  have hrefs : s.refs n ≠ 0 := by
    have := h.counted n
    omega
  refine ⟨?_, ?_⟩
  · by_contra hf
    exact hrefs (h.zero n (.inl hf))
  · by_contra hz
    exact hrefs (h.zero n (.inr (Nat.pos_of_ne_zero hz)))

omit [Fintype ι] in
theorem State.own_section
    (hr : s.running c = some d) (hn : s.reader d = none) (hs : s.InSection c n) : False := by
  obtain ⟨t, ht, -, hread⟩ := hs
  rw [← some.inj (hr.symm.trans ht), hn] at hread
  simp at hread

section

variable (h : Inv m s)
include h

theorem Inv.install [DecidableEq ι] (i : ι) (hn : 0 < s.held n) : Inv m { s with
      slots := update s.slots i (some n)
      held := update (s.evict i) n (s.evict i n - 1) } := by
  refine h.memory (fun q => ?_) h.zero (fun _ hd => .inl hd) fun _ _ hb => hb
  have h1 := h.counted q
  have h2 := pointers_update s.slots i (some n) q
  have h3 := s.evict_apply i q
  by_cases hqn : q = n
  · subst hqn
    simp only [decide_true, toNat_true] at h2
    rw [update_self]
    omega
  · have hne : ¬some n = some q := fun e => hqn (some.inj e).symm
    simp only [hne, decide_false, toNat_false] at h2
    rw [update_of_ne hqn]
    omega

theorem Inv.clear [DecidableEq ι] (i : ι) :
    Inv m { s with slots := update s.slots i none, held := s.evict i } := by
  refine h.memory (fun q => ?_) h.zero (fun _ hd => .inl hd) fun _ _ hb => hb
  have h1 := h.counted q
  have h2 := pointers_update s.slots i none q
  have h3 := s.evict_apply i q
  simp only [reduceCtorEq, decide_false, toNat_false] at h2
  omega

/-- The fate of a vnode without references changes, but not to a batch. -/
theorem Inv.decide_fate {f : Fate} (hz : s.refs n = 0)
    (hd : f = .doomed → s.up = false) (hb : ∀ d, f ≠ .batched d) :
    Inv m { s with fate := update s.fate n f } := by
  refine h.memory h.counted (fun q hq => ?_) (fun q hq => ?_) fun q d hq => ?_
  · by_cases hqn : q = n
    · rw [hqn, hz]
    · rw [update_of_ne hqn] at hq
      exact h.zero q hq
  · by_cases hqn : q = n
    · rw [hqn, update_self] at hq
      exact .inr (hd hq)
    · rw [update_of_ne hqn] at hq
      exact .inl hq
  · by_cases hqn : q = n
    · rw [hqn, update_self] at hq
      exact absurd hq (hb d)
    · rwa [update_of_ne hqn] at hq

/-- More or fewer closes of a vnode without references are under way. -/
theorem Inv.see_zero {k : ℕ} {deleted : Vnode → Bool} (hz : s.refs n = 0) :
    Inv m { s with deleted, zeros := update s.zeros n k } := by
  refine h.memory h.counted (fun q hq => ?_) (fun _ hd => .inl hd) fun _ _ hb => hb
  by_cases hqn : q = n
  · exact hqn ▸ hz
  · rw [update_of_ne hqn] at hq
    exact h.zero q hq

theorem Inv.alloc (hf : s.fate n = .fresh) : Inv m { s with
      refs := update s.refs n 1
      held := update s.held n 1
      zeros := update s.zeros n 0
      fate := update s.fate n .live } := by
  have hzero := h.zero n (.inl (by rw [hf]; decide))
  have hcount := h.counted n
  refine ((h.decide_fate hzero ?_ ?_).see_zero hzero).counts ?_ (fun _ hq _ => hq) ?_
  · simp
  · simp
  · simp only
    omega
  · simp

theorem Inv.switch (ho : s.online c = true) (hc : c ∈ m.cpus)
    (hq : s.masked c = false ∨ s.quiet c = true) (hw : s.Waiting m t) :
    Inv m { s with running := update s.running c (some t) } := by
  -- a thread that waits has no address, and neither has the one that leaves the processor
  have hno : ∀ c' u, s.running c' = some u → u ≠ t := fun c' u hu e =>
    hw c' (h.online c' u hu).2 (e ▸ hu)
  have hidle : s.reader t = none := by
    cases hr : s.reader t with
    | none => rfl
    | some n =>
      obtain ⟨c', hrun, -⟩ := h.sections t n hr
      exact absurd rfl (hno c' t hrun)
  refine h.processors (fun _ _ hr => hr) (fun u n hr => ?_) (fun c1 c2 u h1 h2 => ?_)
    (fun c1 u h1 => ?_) fun d n c1 u h1 h2 h3 => ?_
  · obtain ⟨c', hrun, hmask⟩ := h.sections u n hr
    have hne : c' ≠ c := by
      rintro rfl
      exact State.not_inSection hq ⟨u, hrun, hmask, hr⟩
    exact ⟨c', by rwa [update_of_ne hne], hmask⟩
  · by_cases e1 : c1 = c <;> by_cases e2 : c2 = c
    · exact e1.trans e2.symm
    · rw [e1, update_self] at h1
      rw [update_of_ne e2] at h2
      exact absurd (some.inj h1).symm (hno c2 u h2)
    · rw [e2, update_self] at h2
      rw [update_of_ne e1] at h1
      exact absurd (some.inj h2).symm (hno c1 u h1)
    · rw [update_of_ne e1] at h1
      rw [update_of_ne e2] at h2
      exact h.unique c1 c2 u h1 h2
  · by_cases e1 : c1 = c
    · exact e1 ▸ ⟨ho, hc⟩
    · rw [update_of_ne e1] at h1
      exact h.online c1 u h1
  have hne : c1 ≠ c := by
    intro e1
    rw [e1, update_self] at h1
    rw [← some.inj h1, hidle] at h3
    simp at h3
  rw [update_of_ne hne] at h1
  exact ⟨⟨u, h1, h2, h3⟩, id⟩

theorem Inv.mask (c : Cpu) : Inv m { s with masked := update s.masked c true } := by
  refine h.processors (fun _ _ hr => hr) (fun u n hr => ?_) h.unique h.online
    fun d n c1 u h1 _ h3 => ?_
  · obtain ⟨c', h1, h2⟩ := h.sections u n hr
    exact ⟨c', h1, update_true c h2⟩
  obtain ⟨c', h1', h2'⟩ := h.sections u n h3
  obtain rfl := h.unique c1 c' u h1 h1'
  exact ⟨⟨u, h1, h2', h3⟩, id⟩

theorem Inv.unmask (hq : s.quiet c = true) :
    Inv m { s with masked := update s.masked c false } := by
  refine h.processors (fun _ _ hr => hr) (fun u n hr => ?_) h.unique h.online
    fun d n c1 u h1 h2 h3 => ?_
  · obtain ⟨c', h1, h2⟩ := h.sections u n hr
    refine ⟨c', h1, ?_⟩
    have hne : c' ≠ c := by
      rintro rfl
      exact State.not_inSection (.inr hq) ⟨u, h1, h2, hr⟩
    rwa [update_of_ne hne]
  have hne : c1 ≠ c := by
    rintro rfl
    rw [update_self] at h2
    exact absurd h2 (by decide)
  rw [update_of_ne hne] at h2
  exact ⟨⟨u, h1, h2, h3⟩, id⟩

/-- A processor acknowledges while no lookup on it has an address. -/
theorem Inv.acknowledge (hq : s.masked c = false ∨ s.quiet c = true) :
    Inv m { s with ipi, ack := update s.ack c false } := by
  refine h.processors (fun _ _ hr => hr) h.sections h.unique h.online fun d n c1 u h1 h2 h3 => ?_
  have hne : c1 ≠ c := by
    rintro rfl
    exact State.not_inSection hq ⟨u, h1, h2, h3⟩
  exact ⟨⟨u, h1, h2, h3⟩, fun hw => hw.mono fun ha => by rwa [update_of_ne hne]⟩

theorem Inv.load [DecidableEq ι] {i : ι} (hup : s.up = true)
    (ht : s.running c = some t) (hm : s.masked c = true) (hi : s.slots i = some n) :
    Inv m { s with reader := update s.reader t (some n) } := by
  have hlive : s.fate n = .live := by
    by_contra hf
    exact h.refs_of_slot hi (h.zero n (.inl hf))
  -- a new address is that of a live vnode
  have hread : ∀ u q, update s.reader t (some n) u = some q →
      (u = t ∧ q = n) ∨ s.reader u = some q := by
    intro u q hu
    by_cases e : u = t
    · rw [e, update_self] at hu
      exact .inl ⟨e, (some.inj hu).symm⟩
    · rw [update_of_ne e] at hu
      exact .inr hu
  refine ⟨h.counted, h.zero, fun u q hu => ?_, h.unique, h.online,
    fun hd => absurd (hup.symm.trans hd) (by decide), fun u q hu => ?_, fun d q c1 hf hs => ?_⟩
  · obtain ⟨rfl, -⟩ | hu := hread u q hu
    · exact ⟨c, ht, hm⟩
    · exact h.sections u q hu
  · obtain ⟨-, rfl⟩ | hu := hread u q hu
    · simp only [hlive]
      decide
    · exact h.gone u q hu
  obtain ⟨u, h1, h2, h3⟩ := hs
  obtain ⟨-, rfl⟩ | h3 := hread u q h3
  · simp only [hlive] at hf
    simp at hf
  · exact h.grace d q c1 hf ⟨u, h1, h2, h3⟩

theorem Inv.detach (d : Thread) : Inv m { s with
      fate := fun n => if s.fate n = .queued then .batched d else s.fate n
      phase := update s.phase d .detached } where
  __ := h
  zero n hn := by
    refine h.zero n (hn.imp_left fun hf hl => hf ?_)
    simp only [hl]
    rfl
  gone t n hr hf := by
    refine h.gone t n hr ?_
    by_cases hq : s.fate n = .queued
    · simp only [if_pos hq, reduceCtorEq] at hf
    · simpa only [if_neg hq] using hf
  grace d' n c hf hs := by
    by_cases hd : d' = d
    · subst hd
      simp only [update_self]
      trivial
    simp only [update_of_ne hd]
    by_cases hq : s.fate n = .queued
    · simp only [if_pos hq, Fate.batched.injEq] at hf
      exact absurd hf.symm hd
    · simp only [if_neg hq] at hf
      exact h.grace d' n c hf hs

end

/-- A lookup loads an address with interrupts disabled. -/
def loadsMasked (s : State ι) : Act ι → Bool
  | .load _ c _ => s.masked c
  | _ => true

/-- A filesystem hands out a vnode only when no close of it is under way. -/
def handsSettled (s : State ι) : Act ι → Bool
  | .handOut n => s.zeros n = 0 ∧ s.fate n = .live
  | _ => true

def Careful (s : State ι) (a : Act ι) : Prop := loadsMasked s a = true ∧ handsSettled s a = true

theorem Inv.step [DecidableEq ι] (h : Inv m s) {a : Act ι} {s' : State ι}
    (he : step m s a = some s') (hc : Careful s a) : Inv m s' := by
  cases a with
  | alloc n =>
    obtain ⟨hf, rfl⟩ := guard_eq_some.mp he
    exact h.alloc hf
  | ref n =>
    obtain ⟨hn, rfl⟩ := guard_eq_some.mp he
    obtain ⟨hl, hz⟩ := h.live_of_held hn
    exact h.counts (by omega) (fun q hq _ => hq) fun hn' => by simp_all
  | install i n =>
    obtain ⟨hn, rfl⟩ := guard_eq_some.mp he
    exact h.install i hn
  | clear i =>
    cases he
    exact h.clear i
  | unref n =>
    obtain ⟨hn, rfl⟩ := guard_eq_some.mp he
    obtain ⟨hl, hz⟩ := h.live_of_held hn
    have hcount := h.counted n
    refine h.counts (by omega) (fun q hq hqn => ?_) fun hn' => ?_
    · split at hq
      · rwa [update_of_ne hqn] at hq
      · exact hq
    · split at hn'
      · omega
      · exact absurd hn' (by rw [hl, hz]; simp)
  | retire n =>
    cases he
    split
    · next hz => exact h.see_zero hz
    · exact { h with }
  | handOut n =>
    obtain ⟨hg, rfl⟩ := guard_eq_some.mp he
    exact h.counts (by omega) (fun q hq _ => hq) fun hn => by simp_all [Careful, handsSettled]
  | claim n =>
    obtain ⟨hn, rfl⟩ := guard_eq_some.mp he
    have hz := h.zero n (.inr hn)
    split
    · exact (h.see_zero hz).decide_fate hz (by simp) (by simp)
    · exact h.see_zero hz
  | release n =>
    obtain ⟨hf, rfl⟩ := guard_eq_some.mp he
    refine h.decide_fate (h.zero n (.inl (by rw [hf]; decide))) (fun hd => ?_) fun d hd => ?_ <;>
      rw [State.fateOf] at hd <;> split_ifs at hd with _ hup
    exact eq_false_iff.mpr hup
  | reclaimNow n =>
    obtain ⟨hf, rfl⟩ := guard_eq_some.mp he
    exact h.decide_fate (h.zero n (.inl (by rw [hf]; decide))) (by simp) (by simp)
  | online c =>
    obtain ⟨hm, rfl⟩ := guard_eq_some.mp he
    refine h.processors (fun _ _ hr => hr) h.sections h.unique (fun c' t ht => ?_)
      fun d n c' t h1 h2 h3 => ⟨⟨t, h1, h2, h3⟩, id⟩
    obtain ⟨ho, hm'⟩ := h.online c' t ht
    exact ⟨update_true c ho, hm'⟩
  | switch c t =>
    obtain ⟨⟨ho, hm, hq, hw⟩, rfl⟩ := guard_eq_some.mp he
    exact h.switch ho hm hq hw
  | mask c =>
    cases he
    exact h.mask c
  | unmask c =>
    obtain ⟨hq, rfl⟩ := guard_eq_some.mp he
    exact h.unmask hq
  | isr c =>
    obtain ⟨hq, rfl⟩ := guard_eq_some.mp he
    exact h.acknowledge (.inl hq.1)
  | poll c =>
    obtain ⟨hq, rfl⟩ := guard_eq_some.mp he
    exact h.acknowledge (.inr hq.2)
  | load t c i =>
    obtain ⟨⟨hu, hr, -, -⟩, he⟩ := ite_none_right_eq_some.mp he
    obtain ⟨n, hi, rfl⟩ := map_eq_some_iff.mp he
    exact h.load hu hr hc.1 hi
  | tryref t =>
    obtain ⟨n, hr, rfl⟩ := map_eq_some_iff.mp he
    split
    · exact h.finish t
    next hrefs =>
    refine (h.finish t).counts (by simp only; omega) (fun q hq _ => hq) fun hn => ?_
    exact absurd (h.zero n hn) hrefs
  | leave t =>
    cases he
    exact h.finish t
  | init =>
    cases he
    exact { h with down := fun hd => absurd hd (by simp) }
  | detach d =>
    obtain ⟨-, rfl⟩ := guard_eq_some.mp he
    exact h.detach d
  | alone d c =>
    obtain ⟨⟨-, hr, hn, hm, hone⟩, rfl⟩ := guard_eq_some.mp he
    refine h.drainer rfl (fun _ ha => ha) fun n c' hs _ => ?_
    -- there is no other processor
    have hlen : m.cpus.length ≤ 1 := hone.elim id m.single
    have hcc : c' = c := by
      obtain ⟨t, ht, -, -⟩ := hs
      obtain ⟨k, hk⟩ := List.mem_iff_getElem?.mp (h.online c' t ht).2
      obtain ⟨k', hk'⟩ := List.mem_iff_getElem?.mp hm
      have h1 := (List.getElem?_eq_some_iff.mp hk).1
      have h2 := (List.getElem?_eq_some_iff.mp hk').1
      rw [show k = 0 by omega] at hk
      rw [show k' = 0 by omega, hk] at hk'
      exact some.inj hk'
    exact State.own_section hr hn (hcc ▸ hs)
  | note d c =>
    obtain ⟨⟨-, hr, hn⟩, rfl⟩ := guard_eq_some.mp he
    refine h.drainer rfl (fun _ ha => ha) fun n c' hs _ e => ?_
    exact State.own_section hr hn (e ▸ hs)
  | acquire d =>
    simp only [Rcu.step] at he
    split at he
    · next self hph =>
      obtain ⟨-, rfl⟩ := guard_eq_some.mp he
      refine h.drainer hph (fun _ ha => ha) fun n c hs hw => .inl ⟨?_, hw⟩
      obtain ⟨t, ht, -, -⟩ := hs
      exact (h.online c t ht).2
    · simp at he
  | arm d =>
    simp only [Rcu.step] at he
    split at he
    swap
    · simp at he
    next self c todo pending hph =>
    split at he
    · next hc' =>
      cases he
      refine h.drainer hph (fun _ => update_true c) fun n c' hs hw => ?_
      obtain ⟨hmem, hne⟩ | ⟨hmem, ha⟩ := hw
      · obtain rfl | hmem := List.mem_cons.mp hmem
        · exact .inr ⟨List.mem_cons_self, update_self ..⟩
        · exact .inl ⟨hmem, hne⟩
      · exact .inr ⟨List.mem_cons_of_mem _ hmem, update_true c ha⟩
    next hc' =>
    cases he
    refine h.drainer hph (fun _ ha => ha) fun n c' hs hw => ?_
    refine hw.imp_left fun ⟨hmem, hne⟩ => ⟨?_, hne⟩
    -- a processor that runs a lookup is online
    obtain rfl | hmem := List.mem_cons.mp hmem
    · obtain ⟨t, ht, -, -⟩ := hs
      exact absurd ⟨hne, (h.online c' t ht).1⟩ hc'
    · exact hmem
  | armed d =>
    simp only [Rcu.step] at he
    split at he <;> cases he
    · next hph =>
      refine h.drainer hph (fun _ ha => ha) fun n c _ hw => ?_
      simp [Phase.Awaits] at hw
    · next hph => exact h.drainer hph (fun _ ha => ha) fun n c _ hw => hw.resolve_left (by simp)
  | send d =>
    simp only [Rcu.step] at he
    split at he <;> cases he
    next hph => exact h.drainer hph (fun _ ha => ha) fun n c _ hw => hw
  | sent d =>
    simp only [Rcu.step] at he
    split at he <;> cases he
    next hph => exact h.drainer hph (fun _ ha => ha) fun n c _ hw => hw
  | check d c =>
    simp only [Rcu.step] at he
    split at he
    · next pending hph =>
      obtain ⟨hack, rfl⟩ := guard_eq_some.mp he
      refine h.drainer hph (fun _ ha => ha) fun n c' _ hw => ?_
      refine ⟨List.mem_filter.mpr ⟨hw.1, ?_⟩, hw.2⟩
      have hne : c' ≠ c := by
        rintro rfl
        exact absurd (hack.symm.trans hw.2) (by decide)
      simpa using hne
    · simp at he
  | acked d =>
    simp only [Rcu.step] at he
    split at he <;> cases he
    next hph => exact h.drainer hph (fun _ ha => ha) fun n c _ hw => absurd hw.1 (by simp)
  | reclaim d n =>
    obtain ⟨⟨-, hf⟩, rfl⟩ := guard_eq_some.mp he
    exact h.decide_fate (h.zero n (.inl (by rw [hf]; simp))) (by simp) (by simp)
  | done d =>
    obtain ⟨-, rfl⟩ := guard_eq_some.mp he
    exact h.drainer rfl (fun _ ha => ha) fun _ _ _ _ => trivial

/-! ## Runs -/

/-- Nothing is allocated, cached, running or queued. -/
def start : State ι where
  slots _ := none
  refs _ := 0
  held _ := 0
  zeros _ := 0
  deleted _ := false
  fate _ := .fresh
  up := false
  reader _ := none
  running _ := none
  masked _ := false
  online _ := false
  ipi _ := false
  ack _ := false
  phase _ := .idle
  barrier := none

variable (m) in
/-- States reached by steps of which each satisfies `C`. -/
inductive Reach [DecidableEq ι] (C : State ι → Act ι → Prop) : State ι → Prop
  | start : Reach C start
  | step {s s'} (a : Act ι) : Reach C s → C s a → step m s a = some s' → Reach C s'

theorem inv_start : Inv m (start (ι := ι)) where
  counted n := by simp [start, pointers]
  zero _ _ := rfl
  sections _ _ h := absurd h (by simp [start])
  unique _ _ _ h := absurd h (by simp [start])
  online _ _ h := absurd h (by simp [start])
  down _ _ := rfl
  gone _ _ h := absurd h (by simp [start])
  grace _ _ _ h := absurd h (by simp [start])

theorem Reach.inv [DecidableEq ι] (h : Reach m Careful s) : Inv m s := by
  induction h with
  | start => exact inv_start
  | step a _ hc he ih => exact ih.step he hc

def Act.Frees (n : Vnode) : Act ι → Prop
  | .reclaim _ q | .reclaimNow q => q = n
  | _ => False

/-- **Grace periods cover the lookups.**  If interrupts are disabled whenever a lookup loads an
address, and no vnode is handed out while its last close is under way, no vnode is freed while a
lookup has its address. -/
theorem free_after_lookups [DecidableEq ι] {s' : State ι} (h : Reach m Careful s) {a : Act ι}
    {n : Vnode} (ha : a.Frees n) (he : step m s a = some s') (t : Thread) :
    s.reader t ≠ some n := by
  intro hr
  cases a with
  | reclaim d q =>
    obtain rfl : q = n := ha
    obtain ⟨⟨hp, hf⟩, -⟩ := ite_none_right_eq_some.mp he
    obtain ⟨c, hrun, hmask⟩ := h.inv.sections t q hr
    have := h.inv.grace d q c hf ⟨t, hrun, hmask, hr⟩
    rw [hp] at this
    exact this
  | reclaimNow q =>
    obtain rfl : q = n := ha
    obtain ⟨hf, -⟩ := ite_none_right_eq_some.mp he
    exact h.inv.gone t q hr hf
  | _ => exact ha

/-- A list of steps, each of which passes a test. -/
def exec [DecidableEq ι] (m : Machine) (ok : State ι → Act ι → Bool) (s : State ι) :
    List (Act ι) → Option (State ι)
  | [] => some s
  | a :: as => if ok s a then (step m s a).bind fun s' => exec m ok s' as else none

omit [Fintype ι] in
theorem Reach.mono [DecidableEq ι] {C C' : State ι → Act ι → Prop} (hC : ∀ s a, C s a → C' s a)
    (h : Reach m C s) : Reach m C' s := by
  induction h with
  | start => exact .start
  | step a _ hc he ih => exact ih.step a (hC _ _ hc) he

omit [Fintype ι] in
theorem Reach.exec [DecidableEq ι] {ok : State ι → Act ι → Bool} {as : List (Act ι)} {s' : State ι}
    (h : Reach m (fun s a => ok s a = true) s) (he : exec m ok s as = some s') :
    Reach m (fun s a => ok s a = true) s' := by
  induction as generalizing s with
  | nil => exact some.inj he ▸ h
  | cons a as ih =>
    obtain ⟨hok, he⟩ := ite_none_right_eq_some.mp he
    obtain ⟨s1, h1, h2⟩ := bind_eq_some_iff.mp he
    exact ih (h.step a hok h1) h2

/-- A run ends with a vnode freed while a lookup has its address. -/
def FreesEarly [DecidableEq ι] (m : Machine) (ok : State ι → Act ι → Bool) : Prop :=
  ∃ s s' a n t, Reach m (fun s a => ok s a = true) s ∧ a.Frees n ∧ step m s a = some s' ∧
    s.reader t = some n

omit [Fintype ι] in
theorem FreesEarly.of_exec [DecidableEq ι] {ok : State ι → Act ι → Bool} (as : List (Act ι))
    (d : Thread) (n : Vnode) (t : Thread) (h : (Rcu.exec m ok (start (ι := ι)) as).any (fun s =>
      (step m s (.reclaim d n)).isSome && decide (s.reader t = some n)) = true) :
    FreesEarly (ι := ι) m ok := by
  cases he : exec m ok start as with
  | none => simp [he] at h
  | some s =>
    rw [he, any_some, and_eq_true] at h
    obtain ⟨s', hs'⟩ := isSome_iff_exists.mp h.1
    exact ⟨s, s', .reclaim d n, n, t, Reach.start.exec he, rfl, hs', of_decide_eq_true h.2⟩

end

/-! ## Two processors -/

namespace TwoCpus

def machine : Machine := ⟨[0, 1], true, fun n => decide (n = 8), by simp⟩

/-- The engine is up, and threads `0` and `1` run. -/
def boot : List (Act (Fin 1)) :=
  [.init, .online 0, .online 1, .switch 0 0, .switch 1 1]

/-- A grace period of thread `0`, up to the first interrupt. -/
def request : List (Act (Fin 1)) :=
  [.detach 0, .note 0 0, .acquire 0, .arm 0, .arm 0, .armed 0, .send 0, .sent 0]

def finish : List (Act (Fin 1)) := [.isr 1, .check 0 1, .acked 0]

/-- Vnode `7` is cached and loses its last reference; `before` happens while it is cached. -/
def drop (before : List (Act (Fin 1))) : List (Act (Fin 1)) :=
  [.alloc 7, .install 0 7] ++ before ++ [.clear 0, .unref 7, .claim 7, .release 7]

/-- The interrupt arrives in the middle of the lookup. -/
def interrupted : List (Act (Fin 1)) := boot ++ drop [.load 1 1 0] ++ request ++ finish

/-- A close of vnode `8` has seen a count of zero, the vnode is handed out and cached again, and
retired before the close looks at its flags. -/
def revived : List (Act (Fin 1)) :=
  boot ++ [.alloc 8, .unref 8, .claim 8, .handOut 8, .install 0 8, .retire 8, .release 8] ++
    request ++ finish ++ [.mask 1, .load 1 1 0]

/-- The lookup is over before the interrupt is taken. -/
def inTurn : List (Act (Fin 1)) :=
  boot ++ drop [.mask 1, .load 1 1 0] ++ request ++ [.tryref 1, .unmask 1] ++ finish

def careful (s : State (Fin 1)) (a : Act (Fin 1)) : Bool := loadsMasked s a && handsSettled s a

theorem inTurn_runs : (exec machine careful start inTurn).isSome = true := by decide +kernel

def drained : State (Fin 1) := (exec machine careful start inTurn).get inTurn_runs

theorem drained_reach : Reach machine Careful drained :=
  (Reach.start.exec (some_get inTurn_runs).symm).mono fun _ _ h => and_eq_true_iff.mp h

theorem drained_step : (step machine drained (.reclaim 0 7)).isSome = true := by decide +kernel

end TwoCpus

/-- A lookup with interrupts enabled loses its vnode, and so does a lookup of a vnode that was
handed out during its last close. -/
theorem freed_under_lookup : FreesEarly (ι := Fin 1) TwoCpus.machine handsSettled ∧
      FreesEarly (ι := Fin 1) TwoCpus.machine loadsMasked := by
  refine ⟨.of_exec TwoCpus.interrupted 0 7 1 (by decide +kernel),
    .of_exec TwoCpus.revived 0 8 1 (by decide +kernel)⟩

theorem free_after_lookups_in_turn : TwoCpus.drained.reader 1 ≠ some 7 :=
  free_after_lookups TwoCpus.drained_reach (a := .reclaim 0 7) rfl
    (some_get TwoCpus.drained_step).symm 1

end AvoryOS.Vfs.Rcu
