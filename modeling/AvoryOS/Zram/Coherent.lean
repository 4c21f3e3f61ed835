import AvoryOS.Lib.Transition
import Mathlib.Logic.Function.Basic
import Mathlib.Tactic.Common

/-!
# Swapping under the eyes of other processors

One address space of private anonymous memory, whose pages are compressed and read back while its
threads run on several processors.  A processor uses the translations in its TLB, which it takes
from the page table at any time and drops only when told to.

`compress_frozen` and `compress_batch` take the write permission from a page, flush, compress the
frame and put the slot in its entry; the flush that removes the translations to the frame comes
after that, for a batch only with the next one.  `zram_fault` does not look whether it has been
done.  Neither does a write fault wait for other processors: it runs with interrupts masked, and
its flush reaches them later.

A frame that is allocated is a new one.  Whether a frame has owners besides the page and the
compressor is part of the events that look at its reference count.
-/

namespace AvoryOS.Zram.Coherent

open Transition Function Option

/-- An entry of the page table.  Frame 0 is the zero page. -/
inductive Entry
  | none
  | frame (f : ℕ) (rw cow : Bool)
  | slot (s : ℕ)
  deriving DecidableEq

structure Trans where
  cpu : ℕ
  page : ℕ
  frame : ℕ
  rw : Bool
  deriving DecidableEq

/-- How far the compressor is with a frame that it has pinned. -/
inductive Stage
  | frozen
  | flushed
  | stored (s : ℕ)
  /-- The slot is in the page table; the frame waits for a flush. -/
  | installed (s : ℕ)

structure Job where
  page : ℕ
  stage : Stage

structure State where
  entry : ℕ → Entry
  data : ℕ → ℕ → UInt8
  slots : ℕ → ℕ → UInt8
  tlb : List Trans
  /-- The compressor's work, by frame. -/
  jobs : ℕ → Option Job
  /-- Swap-ins that have read a slot. -/
  readers : ℕ → Option (ℕ × ℕ)
  next : ℕ
  nextSlot : ℕ
  /-- What was last stored in each page. -/
  last : ℕ → ℕ → UInt8

inductive Event
  | fill (cpu v : ℕ)
  | store (t : Trans) (o : ℕ) (x : UInt8)
  /-- A fault on a page that was never touched. -/
  | touch (v : ℕ) (zero : Bool)
  /-- A write fault on a present page, and whether its frame has other owners. -/
  | writeFault (cpu v : ℕ) (others : Bool)
  /-- `freeze` and `freeze_run`, for one page. -/
  | freeze (v : ℕ) (others : Bool)
  /-- A flush on all processors, of one page or of the address space.  The compressor has waited
  for it with the frames `fs`. -/
  | flush (page : Option ℕ) (fs : List ℕ)
  /-- `zram_store_page`. -/
  | compress (f : ℕ) (ok : Bool)
  /-- The second look at the entry, under the lock. -/
  | install (f : ℕ) (others : Bool)
  /-- A swap-in or its readahead pins the slot of a page and reads it. -/
  | pin (r v : ℕ)
  /-- It looks at the entry again. -/
  | swapIn (r : ℕ) (rw : Bool)

def setEntry (s : State) (v : ℕ) (e : Entry) : State :=
  { s with entry := update s.entry v e }

def mapNew (s : State) (v : ℕ) (content : ℕ → UInt8) (rw : Bool) : State :=
  { s with
    entry := update s.entry v (.frame s.next rw false)
    data := update s.data s.next content
    next := s.next + 1 }

def setJob (s : State) (f : ℕ) (j : Option Job) : State :=
  { s with jobs := update s.jobs f j }

/-- `invlpg` on one processor. -/
def localFlush (s : State) (cpu v : ℕ) : State :=
  { s with tlb := s.tlb.filter fun t => ! (t.cpu == cpu && t.page == v) }

/-- The compressor may go on with the frame after a flush. -/
def awaits (page : Option ℕ) : Option Job → Bool
  | some ⟨v, .frozen⟩ | some ⟨v, .installed _⟩ => page.all (· == v)
  | _ => false

/-- The job after the flush; a frame that was replaced is released. -/
def Job.flushed : Option Job → Option Job
  | some ⟨v, .frozen⟩ => some ⟨v, .flushed⟩
  | _ => none

/-- A write fault makes a copy if the frame has other owners, one of which is the compressor. -/
def copies (s : State) (f : ℕ) (others : Bool) : Bool := f == 0 || others || (s.jobs f).isSome

def step (s : State) : Event → Option State
  | .fill cpu v =>
    match s.entry v with
    | .frame f rw _ => some { s with tlb := ⟨cpu, v, f, rw⟩ :: s.tlb }
    | _ => none
  | .store t o x =>
    if t ∈ s.tlb ∧ t.rw = true then
      some { s with
        data := update s.data t.frame (update (s.data t.frame) o x)
        last := update s.last t.page (update (s.last t.page) o x) }
    else none
  | .touch v zero =>
    if s.entry v = .none then
      some (if zero then setEntry s v (.frame 0 false true) else mapNew s v (fun _ => 0) true)
    else none
  | .writeFault cpu v others =>
    match s.entry v with
    | .frame f false true =>
      some (localFlush (if copies s f others then mapNew s v (s.data f) true
        else setEntry s v (.frame f true false)) cpu v)
    | _ => none
  | .freeze v others =>
    match s.entry v with
    | .frame f rw cow =>
      if f ≠ 0 ∧ others = false ∧ (s.jobs f).isNone then
        some (setJob (setEntry s v (.frame f false (rw || cow))) f (some ⟨v, .frozen⟩))
      else none
    | _ => none
  | .flush page fs =>
    if fs.all fun f => awaits page (s.jobs f) then
      some { s with
        tlb := s.tlb.filter fun t => ! page.all (· == t.page)
        jobs := fun f => if f ∈ fs then Job.flushed (s.jobs f) else s.jobs f }
    else none
  | .compress f ok =>
    match s.jobs f with
    | some ⟨v, .flushed⟩ =>
      if ok then
        some (setJob { s with
          slots := update s.slots s.nextSlot (s.data f)
          nextSlot := s.nextSlot + 1 } f (some ⟨v, .stored s.nextSlot⟩))
      else some (setJob s f none)
    | _ => none
  | .install f others =>
    match s.jobs f with
    | some ⟨v, .stored z⟩ =>
      if others = false ∧ (s.entry v = .frame f false true ∨ s.entry v = .frame f false false)
      then some (setJob (setEntry s v (.slot z)) f (some ⟨v, .installed z⟩))
      else some (setJob s f none)
    | _ => none
  | .pin r v =>
    match s.entry v with
    | .slot z => some { s with readers := update s.readers r (some (v, z)) }
    | _ => none
  | .swapIn r rw =>
    match s.readers r with
    | some (v, z) =>
      let s' := { s with readers := update s.readers r none }
      some (if s.entry v = .slot z then mapNew s' v (s.slots z) rw else s')
    | none => none

structure Initial (s : State) : Prop where
  entry : ∀ v, s.entry v = .none
  zero : s.data 0 = fun _ => 0
  tlb : s.tlb = []
  jobs : ∀ f, s.jobs f = none
  next : 0 < s.next
  last : ∀ v, s.last v = fun _ => 0

/-! ## The invariant -/

/-- A translation is that of the page table, or leads to a frame whose content is in the slot that
replaced it; it may be writable where the entry is not only until the flush of the compressor. -/
@[grind] def TransOk (s : State) (t : Trans) : Prop :=
  (∃ rw cow, s.entry t.page = .frame t.frame rw cow ∧
    (t.rw = true → rw = true ∨ s.jobs t.frame = some ⟨t.page, .frozen⟩)) ∨
  t.rw = false ∧ ∃ z, s.jobs t.frame = some ⟨t.page, .installed z⟩ ∧ s.entry t.page = .slot z ∧
    s.slots z = s.data t.frame

@[grind cases] structure Inv (s : State) : Prop where
  zero : s.data 0 = fun _ => 0
  next : 0 < s.next
  untouched : ∀ v, s.entry v = .none → s.last v = fun _ => 0
  frame : ∀ v f rw cow, s.entry v = .frame f rw cow →
    s.data f = s.last v ∧ f < s.next ∧ (f = 0 → rw = false)
  slot : ∀ v z, s.entry v = .slot z → s.slots z = s.last v ∧ z < s.nextSlot
  owner : ∀ v v' f rw cow rw' cow', s.entry v = .frame f rw cow → s.entry v' = .frame f rw' cow' →
    f ≠ 0 → v = v'
  job : ∀ f v st, s.jobs f = some ⟨v, st⟩ → 0 < f ∧ f < s.next ∧
    ∀ v' rw cow, s.entry v' = .frame f rw cow → v' = v ∧ rw = false
  stored : ∀ f v z, s.jobs f = some ⟨v, .stored z⟩ → s.slots z = s.data f ∧ z < s.nextSlot
  trans : ∀ t ∈ s.tlb, TransOk s t

theorem Initial.inv {s : State} (h : Initial s) : Inv s := by
  constructor
  · exact h.zero
  · exact h.next
  all_goals simp [h.entry, h.jobs, h.tlb, h.last]

/-- The step gives a page a new frame while a translation of the page to the old one is left: a
swap-in before the flush that the swap-out waits for, or a copy while another processor has the
page in its TLB. -/
def early (s : State) : Event → Bool
  | .writeFault cpu v others =>
    match s.entry v with
    | .frame f false true =>
      copies s f others && s.tlb.any fun t => t.page == v && t.cpu != cpu
    | _ => false
  | .swapIn r _ =>
    match s.readers r with
    | some (v, z) => s.entry v == .slot z && s.tlb.any fun t => t.page == v
    | none => false
  | _ => false

variable {v : ℕ} {others : Bool}

section Steps

variable {s s' : State}

section

variable (h : Inv s)
include h

/-- A page gets a new frame when no TLB has a translation of it. -/
theorem Inv.mapNew {content : ℕ → UInt8} {rw : Bool}
    (hc : content = s.last v) (ht : ∀ t ∈ s.tlb, t.page ≠ v) : Inv (mapNew s v content rw) := by
  constructor
  case trans =>
    intro t htt
    have hpage := ht t htt
    have hold := h.trans t htt
    simp only [TransOk, Coherent.mapNew] at hold ⊢
    grind
  all_goals
    simp only [Coherent.mapNew]
    grind

theorem Inv.drop (p : Trans → Bool) : Inv { s with tlb := s.tlb.filter p } :=
  { h with trans := fun t ht => h.trans t (List.mem_filter.mp ht).1 }

theorem Inv.fill {cpu : ℕ} (he : step s (.fill cpu v) = some s') : Inv s' := by
  simp only [step] at he
  split at he
  · rename_i f rw cow hv
    cases he
    refine { h with trans := ?_ }
    rw [List.forall_mem_cons]
    exact ⟨.inl ⟨rw, cow, hv, .inl⟩, h.trans⟩
  · cases he

/-- A store goes to the frame that the page table names, and no other page has that frame. -/
theorem Inv.store {t : Trans} {o : ℕ} {x : UInt8}
    (he : step s (.store t o x) = some s') : Inv s' := by
  simp only [step, ite_none_right_eq_some, some.injEq] at he
  obtain ⟨⟨hmem, hrw⟩, rfl⟩ := he
  constructor <;> grind

theorem Inv.touch {zero : Bool} (he : step s (.touch v zero) = some s') : Inv s' := by
  simp only [step, ite_none_right_eq_some, some.injEq] at he
  obtain ⟨hv, rfl⟩ := he
  have ht : ∀ t ∈ s.tlb, t.page ≠ v := fun t ht hp => by
    have := h.trans t ht
    simp [TransOk, hp, hv] at this
  cases zero with
  | false => exact h.mapNew (h.untouched v hv).symm ht
  | true =>
    constructor
    case trans =>
      intro t htt
      have hpage := ht t htt
      have hold := h.trans t htt
      simpa [TransOk, setEntry, update_apply, hpage] using hold
    all_goals
      simp only [setEntry]
      grind

theorem Inv.writeFault {cpu : ℕ} (hc : early s (.writeFault cpu v others) = false)
    (he : step s (.writeFault cpu v others) = some s') : Inv s' := by
  simp only [step] at he
  split at he
  swap
  · cases he
  rename_i f hv
  cases he
  simp only [early] at hc
  by_cases hcopy : copies s f others = true
  · -- the local flush removes all that was left
    have ht : ∀ t ∈ s.tlb.filter fun t => ! (t.cpu == cpu && t.page == v), t.page ≠ v := by
      grind
    simp only [hcopy]
    exact (h.drop _).mapNew (h.frame v f _ _ hv).1 ht
  have hjob : s.jobs f = none ∧ f ≠ 0 := by
    simp only [copies, Bool.or_eq_true, beq_iff_eq, not_or, not_isSome_iff_eq_none] at hcopy
    exact ⟨hcopy.2, hcopy.1.1⟩
  simp only [hcopy]
  have hset : Inv (setEntry s v (.frame f true false)) := by
    constructor <;> simp only [setEntry] <;> grind
  exact hset.drop _

theorem Inv.freeze (he : step s (.freeze v others) = some s') : Inv s' := by
  simp only [step] at he
  split at he
  · simp only [ite_none_right_eq_some, some.injEq, isNone_iff_eq_none] at he
    obtain ⟨⟨hf0, -, hnone⟩, rfl⟩ := he
    constructor <;> simp only [setEntry, setJob] <;> grind
  · cases he

end

theorem awaits_page {page : Option ℕ} {st : Stage} (h : awaits page (some ⟨v, st⟩) = true) :
    page.all (· == v) = true := by
  cases st <;> simp_all [awaits]

theorem Job.flushed_eq_some {o : Option Job} {st : Stage}
    (h : Job.flushed o = some ⟨v, st⟩) : st = .flushed ∧ o = some ⟨v, .frozen⟩ := by
  rcases o with _ | ⟨w, _ | _ | _ | _⟩ <;> simp_all [Job.flushed]

/-- After a flush no translation of a page is left for which the compressor has waited. -/
theorem Inv.flush {page : Option ℕ} {fs : List ℕ} (h : Inv s)
    (he : step s (.flush page fs) = some s') : Inv s' := by
  simp only [step, ite_none_right_eq_some, some.injEq, List.all_eq_true] at he
  obtain ⟨hall, rfl⟩ := he
  have hjobs : ∀ f v st, (if f ∈ fs then Job.flushed (s.jobs f) else s.jobs f) = some ⟨v, st⟩ →
      ∃ st', s.jobs f = some ⟨v, st'⟩ ∧ (st = .flushed ∨ st = st') := by
    intro f v st hjf
    split at hjf
    · obtain ⟨rfl, hjob⟩ := Job.flushed_eq_some hjf
      exact ⟨_, hjob, .inl rfl⟩
    · exact ⟨st, hjf, .inr rfl⟩
  constructor
  case trans =>
    intro t htt
    obtain ⟨htt, hout⟩ := List.mem_filter.mp htt
    have hold := h.trans t htt
    have hnot : ∀ st, s.jobs t.frame = some ⟨t.page, st⟩ → t.frame ∉ fs := by
      intro st hst hmem
      have := hall _ hmem
      rw [hst] at this
      simp [awaits_page this] at hout
    simp only [TransOk] at hold ⊢
    grind
  all_goals grind

theorem Inv.compress {f : ℕ} {ok : Bool} (h : Inv s) (he : step s (.compress f ok) = some s') :
    Inv s' := by
  simp only [step] at he
  split at he
  · cases ok
    all_goals
      cases he
      constructor <;> simp only [setJob] <;> grind
  · cases he

theorem Inv.install {f : ℕ} (h : Inv s) (he : step s (.install f others) = some s') : Inv s' := by
  simp only [step] at he
  split at he
  · split at he
    all_goals
      cases he
      constructor <;> simp only [setEntry, setJob] <;> grind
  · cases he

theorem Inv.swapIn {r : ℕ} {rw : Bool} (h : Inv s) (hc : early s (.swapIn r rw) = false)
    (he : step s (.swapIn r rw) = some s') : Inv s' := by
  simp only [step] at he
  split at he
  swap
  · cases he
  rename_i v z hr
  cases he
  have hs : Inv { s with readers := update s.readers r none } := { h with }
  by_cases hv : s.entry v = .slot z
  · simp only [hv]
    refine hs.mapNew (h.slot v z hv).1 fun t ht hp => ?_
    simp only [early, hr, hv, beq_self_eq_true, Bool.true_and, List.any_eq_false] at hc
    exact hc t ht (by simpa using hp)
  · simpa only [hv, if_false] using hs

theorem Inv.step {e : Event} (h : Inv s) (hc : early s e = false) (he : step s e = some s') :
    Inv s' := by
  cases e with
  | fill => exact h.fill he
  | store => exact h.store he
  | touch => exact h.touch he
  | writeFault => exact h.writeFault hc he
  | freeze => exact h.freeze he
  | flush => exact h.flush he
  | compress => exact h.compress he
  | install => exact h.install he
  | pin r v =>
    simp only [Coherent.step] at he
    split at he
    · cases he
      exact { h with }
    · cases he
  | swapIn => exact h.swapIn hc he

end Steps

def fresh : State where
  entry _ := .none
  data _ _ := 0
  slots _ _ := 0
  tlb := []
  jobs _ := none
  readers _ := none
  next := 1
  nextSlot := 0
  last _ _ := 0

end AvoryOS.Zram.Coherent
