import AvoryOS.Lib.Transition
import AvoryOS.Vma.Frame
import Mathlib.Data.Fintype.Defs

/-!
# The program break

`sys_brk` by the threads of one address space.  Each section under `mm->lock` is one step, and so
are the faults, which make the entries of pages.  A shrinking call releases the lock between its
sections, and goes on with the ends it has computed in the first; a growth that is refused returns
what it reads after the lock is released.  `vmas` are the regions of the heap; what else is mapped
only makes a growth fail.

`left` is the break at the end of the last section of a call, and is not part of the code.
-/

namespace AvoryOS.Vmm.Brk

open Vma Region Function Transition Option

/-- `PAGE_ALIGN_UP`. -/
def pageAlignUp (x : ℕ) : ℕ := (x + 4095) / 4096 * 4096

/-- Where a thread is in `sys_brk`. -/
inductive Pc
  | idle
  | reread
  /-- The lock is released for the first time, with `addr` and `old_end`. -/
  | shrink (addr old : ℕ)
  /-- The range is reserved, and torn down up to `batch_start`. -/
  | sweep (addr old batch : ℕ)
  deriving DecidableEq

structure State (T : Type) where
  brkBase : ℕ
  brkCurrent : ℕ
  vmas : List Region
  /-- The pages with an entry, by their addresses. -/
  entry : ℕ → Bool
  pc : T → Pc
  left : T → ℕ
  /-- What the last call has returned. -/
  ret : T → ℕ

/-- What a call does in its first section. -/
inductive Kind
  | ask | refuse | grow | shrink
  deriving DecidableEq

inductive Event (T : Type)
  /-- The growth is `refused` for want of memory or for a mapping that is not of the heap. -/
  | call (t : T) (addr : ℕ) (refused : Bool) (alloc : Region → Bool)
  | reread (t : T)
  | protect (t : T) (alloc : Region → Bool)
  | batch (t : T)
  | remove (t : T) (alloc : Region → Bool)
  | fault (page : ℕ)

@[grind] def heapRegion (start stop : ℕ) : Region := ⟨start, stop, 3, 0x22, 0, 0, -1, 0, 0, 0, 0, 0⟩

/-- The regions for which `vma_add` finds a node. -/
def kept (alloc : Region → Bool) (old new : List Region) : List Region :=
  new.filter fun w => w ∈ old || alloc w

variable {T : Type} [DecidableEq T] (limit : ℕ)

namespace State

def finish (s : State T) (t : T) : State T :=
  { s with
    pc := update s.pc t .idle
    left := update s.left t s.brkCurrent
    ret := update s.ret t s.brkCurrent }

/-- The last section of a shrinking call. -/
def trim (s : State T) (t : T) (addr old : ℕ) (alloc : Region → Bool) : State T :=
  { s with
    vmas := kept alloc s.vmas (s.vmas.flatMap (cut (pageAlignUp addr) old))
    brkCurrent := addr }.finish t

def kind (s : State T) (addr : ℕ) (refused : Bool) : Kind :=
  if addr = 0 ∨ limit < addr then .ask
  else if s.brkCurrent < addr then
    if pageAlignUp s.brkCurrent < pageAlignUp addr ∧
        (refused ∨ ∃ v ∈ s.vmas, v.Meets (pageAlignUp s.brkCurrent) (pageAlignUp addr)) then .refuse
    else .grow
  else if addr < s.brkCurrent ∧ s.brkBase ≤ addr then .shrink
  else .ask

def call (s : State T) (t : T) (addr : ℕ) (refused : Bool) (alloc : Region → Bool) : State T :=
  let old := pageAlignUp s.brkCurrent
  match s.kind limit addr refused with
  | .ask => s.finish t
  | .refuse =>
    { s with
      pc := update s.pc t .reread
      left := update s.left t s.brkCurrent }
  | .grow =>
    { s with
      vmas := if old < pageAlignUp addr then heapRegion old (pageAlignUp addr) :: s.vmas else s.vmas
      brkCurrent := addr }.finish t
  | .shrink =>
    if pageAlignUp addr < old then { s with pc := update s.pc t (.shrink addr old) }
    else s.trim t addr old alloc

/-- The next section of the thread finds all its nodes. -/
def spared (s : State T) (t : T) (alloc : Region → Bool) : Bool :=
  match s.pc t with
  | .shrink addr old =>
    (s.vmas.flatMap (protect (pageAlignUp addr) old 0)).all fun w => w ∈ s.vmas || alloc w
  | .sweep addr old _ =>
    (s.vmas.flatMap (cut (pageAlignUp addr) old)).all fun w => w ∈ s.vmas || alloc w
  | _ => true

end State

def step (s : State T) : Event T → Option (State T)
  | .call t addr refused alloc =>
    if s.pc t = .idle then some (s.call limit t addr refused alloc) else none
  | .reread t =>
    if s.pc t = .reread then
      some { s with
        pc := update s.pc t .idle
        ret := update s.ret t s.brkCurrent }
    else none
  | .protect t alloc =>
    match s.pc t with
    | .shrink addr old =>
      some { s with
        vmas := kept alloc s.vmas (s.vmas.flatMap (protect (pageAlignUp addr) old 0))
        pc := update s.pc t (.sweep addr old (pageAlignUp addr)) }
    | _ => none
  | .batch t =>
    match s.pc t with
    | .sweep addr old start =>
      let stop := min (start + 32 * 4096) old
      if start < old then
        some { s with
          entry := fun a => if start ≤ a ∧ a < stop then false else s.entry a
          pc := update s.pc t (.sweep addr old stop) }
      else none
    | _ => none
  | .remove t alloc =>
    match s.pc t with
    | .sweep addr old start => if old ≤ start then some (s.trim t addr old alloc) else none
    | _ => none
  | .fault page =>
    match s.vmas.find? fun v => v.Has page with
    | some v => if v.prot ≠ 0 then some { s with entry := update s.entry page true } else none
    | none => none

/-- No call changes the break while another is between two of its sections, and no piece of a region
is lost for want of a node. -/
def Quiet (s : State T) : Event T → Prop
  | .call _ addr refused _ =>
    s.kind limit addr refused = .grow ∨ s.kind limit addr refused = .shrink → ∀ u, s.pc u = .idle
  | .protect t alloc => s.spared t alloc
  | .remove t alloc => (∀ u, s.pc u ≠ .reread) ∧ s.spared t alloc
  | _ => True

instance [Fintype T] (s : State T) : ∀ e, Decidable (Quiet limit s e)
  | .call .. => inferInstanceAs (Decidable (_ → _))
  | .protect .. => inferInstanceAs (Decidable (_ = true))
  | .remove .. => inferInstanceAs (Decidable (_ ∧ _))
  | .reread _ | .batch _ | .fault _ => isTrue trivial

structure Initial (s : State T) : Prop where
  current : s.brkCurrent = s.brkBase
  vmas : s.vmas = []
  entry : ∀ a, s.entry a = false
  pc : ∀ t, s.pc t = .idle
  ret : ∀ t, s.ret t = s.left t

@[grind] structure Anonymous (v : Region) : Prop where
  lt : v.start < v.stop
  flags : v.flags = 0x22
  fd : v.fd = -1
  fileNode : v.fileNode = 0

/-- The heap is the pages from the base to the break. -/
def Covers (vmas : List Region) (base current : ℕ) : Prop :=
  ∀ a, (∃ v ∈ vmas, v.Has a) ↔ pageAlignUp base ≤ a ∧ a < pageAlignUp current

/-- The shrinking call at `pc` has got the ends of the heap. -/
@[grind] def Pc.Ends (base current : ℕ) : Pc → Prop
  | .shrink addr old | .sweep addr old _ =>
    base ≤ addr ∧ addr < current ∧ old = pageAlignUp current
  | _ => True

@[grind cases] structure Inv (s : State T) : Prop where
  base_le : s.brkBase ≤ s.brkCurrent
  covers : Covers s.vmas s.brkBase s.brkCurrent
  heap : ∀ v ∈ s.vmas, Anonymous v
  ends : ∀ t, (s.pc t).Ends s.brkBase s.brkCurrent
  one : ∀ t u, s.pc t ≠ .idle → s.pc t ≠ .reread → s.pc u ≠ .idle → s.pc u ≠ .reread → t = u
  sweep : ∀ t addr old start, s.pc t = .sweep addr old start → pageAlignUp addr ≤ start ∧
    ∀ v ∈ s.vmas, v.prot = 3 ∧ v.stop ≤ pageAlignUp addr ∨ v.prot = 0 ∧ pageAlignUp addr ≤ v.start
  prot : (∀ t addr old start, s.pc t ≠ .sweep addr old start) → ∀ v ∈ s.vmas, v.prot = 3
  entry : ∀ a, s.entry a = true → (∃ v ∈ s.vmas, v.Has a ∧ v.prot = 3) ∨
    ∃ t addr old start, s.pc t = .sweep addr old start ∧ start ≤ a ∧ a < old
  idle : ∀ t, s.pc t = .idle → s.ret t = s.left t
  reread : ∀ t, s.pc t = .reread → s.left t = s.brkCurrent

variable {limit} {s s' s0 : State T} {t : T} {es : List (Event T)}

theorem pageAlignUp_mono {x y : ℕ} (h : x ≤ y) : pageAlignUp x ≤ pageAlignUp y := by
  unfold pageAlignUp
  omega

theorem kept_eq {alloc : Region → Bool} {old new : List Region}
    (h : new.all fun w => w ∈ old || alloc w) : kept alloc old new = new :=
  List.filter_eq_self.mpr (List.all_eq_true.mp h)

omit [DecidableEq T] in
theorem Initial.inv (h : Initial s) : Inv s := by
  obtain ⟨hcur, hvmas, hentry, hpc, hret⟩ := h
  refine ⟨hcur.ge, ?_, ?_, ?_, ?_, ?_, ?_, ?_, ?_, ?_⟩
  · intro a
    simp [hvmas, hcur]
  all_goals grind

namespace Inv

variable {v : Region}

omit [DecidableEq T] in
theorem mem_bounds (h : Inv s) (hv : v ∈ s.vmas) :
    pageAlignUp s.brkBase ≤ v.start ∧ v.stop ≤ pageAlignUp s.brkCurrent := by
  have hlt := (h.heap v hv).lt
  have h1 := (h.covers v.start).mp ⟨v, hv, le_rfl, hlt⟩
  have h2 := (h.covers (v.stop - 1)).mp ⟨v, hv, by omega, by omega⟩
  omega

theorem finish (h : Inv s) (hpc : s.pc t = .idle) : Inv (s.finish t) := by
  refine ⟨h.base_le, h.covers, h.heap, ?_, ?_, ?_, ?_, ?_, ?_, ?_⟩ <;>
    simp only [State.finish, update_apply] <;> grind

variable {addr : ℕ}

/-- A call that changes the heap, with no other in progress. -/
theorem change (h : Inv s) {vmas : List Region} (hother : ∀ u, u ≠ t → s.pc u = .idle)
    (hbase : s.brkBase ≤ addr) (hcovers : Covers vmas s.brkBase addr)
    (hheap : ∀ v ∈ vmas, Anonymous v ∧ v.prot = 3)
    (hentry : ∀ a, s.entry a = true → ∃ v ∈ vmas, v.Has a) :
    Inv ({ s with vmas, brkCurrent := addr }.finish t) := by
  refine ⟨hbase, hcovers, fun v hv => (hheap v hv).1, ?_, ?_, ?_, ?_, ?_, ?_, ?_⟩ <;>
    simp only [State.finish] <;> grind

theorem grow (h : Inv s) (hidle : ∀ u, s.pc u = .idle) (hlt : s.brkCurrent < addr) :
    Inv ({ s with
      vmas := if pageAlignUp s.brkCurrent < pageAlignUp addr then
        heapRegion (pageAlignUp s.brkCurrent) (pageAlignUp addr) :: s.vmas else s.vmas
      brkCurrent := addr }.finish t) := by
  have hprot := h.prot (by simp [hidle])
  have hup := pageAlignUp_mono hlt.le
  have hbase := pageAlignUp_mono h.base_le
  refine h.change (fun u _ => hidle u) (h.base_le.trans hlt.le) ?_ ?_ ?_
  · intro a
    have hold := h.covers a
    split
    · simp only [List.mem_cons, exists_eq_or_imp]
      rw [hold]
      simp only [heapRegion, Has]
      omega
    · rw [hold]
      omega
  · have := h.heap
    split
    · grind
    · grind
  · grind

variable {alloc : Region → Bool}

theorem trim (h : Inv s)
    (hother : ∀ u, u ≠ t → s.pc u = .idle) (hbase : s.brkBase ≤ addr) (hle : addr ≤ s.brkCurrent)
    (hv : ∀ v ∈ s.vmas, v.prot = 3 ∧ v.stop ≤ pageAlignUp addr ∨
      v.prot = 0 ∧ pageAlignUp addr ≤ v.start)
    (hentry : ∀ a, s.entry a = true → ∃ v ∈ s.vmas, v.Has a ∧ v.prot = 3)
    (hs : (s.vmas.flatMap (cut (pageAlignUp addr) (pageAlignUp s.brkCurrent))).all fun w =>
      w ∈ s.vmas || alloc w) : Inv (s.trim t addr (pageAlignUp s.brkCurrent) alloc) := by
  have hup := pageAlignUp_mono hle
  have hmem : ∀ w, w ∈ s.vmas.flatMap (cut (pageAlignUp addr) (pageAlignUp s.brkCurrent)) ↔
      w ∈ s.vmas ∧ w.prot = 3 := by
    intro w
    refine ⟨fun hw => ?_, fun ⟨hw, hp⟩ => ?_⟩
    · obtain ⟨v, hmem, hw⟩ := List.mem_flatMap.mp hw
      have hb := h.mem_bounds hmem
      have hlt := (h.heap v hmem).lt
      rcases mem_cut.mp hw with ⟨hm, hl, rfl⟩ | ⟨hm, hl, rfl⟩ | ⟨hm, rfl⟩ <;> grind
    · exact List.mem_flatMap.mpr ⟨w, hw, mem_cut.mpr (by grind)⟩
  rw [State.trim, kept_eq hs]
  refine h.change hother hbase ?_ ?_ ?_
  · intro a
    have := h.covers a
    grind
  · grind
  · grind

theorem call {refused : Bool} (h : Inv s)
    (hok : Quiet limit s (.call t addr refused alloc)) (hpc : s.pc t = .idle) :
    Inv (s.call limit t addr refused alloc) := by
  rw [State.call]
  cases hk : s.kind limit addr refused with
  | ask => exact h.finish hpc
  | refuse =>
    refine ⟨h.base_le, h.covers, h.heap, ?_, ?_, ?_, ?_, ?_, ?_, ?_⟩ <;>
      simp only [update_apply] <;> grind
  | grow => exact h.grow (hok (.inl hk)) (by grind [State.kind])
  | shrink =>
    have hidle := hok (.inr hk)
    have haddr : addr < s.brkCurrent ∧ s.brkBase ≤ addr := by grind [State.kind]
    have hprot := h.prot (by simp [hidle])
    dsimp only
    split
    · refine ⟨h.base_le, h.covers, h.heap, ?_, ?_, ?_, ?_, ?_, ?_, ?_⟩ <;> grind
    next hup =>
    have hv : ∀ v ∈ s.vmas, v.prot = 3 ∧ v.stop ≤ pageAlignUp addr := by
      intro v hv
      have := h.mem_bounds hv
      exact ⟨hprot v hv, by omega⟩
    refine h.trim (fun u _ => hidle u) haddr.2 haddr.1.le (fun v hmem => .inl (hv v hmem)) ?_ ?_
    · grind
    -- nothing ends behind the break
    refine List.all_eq_true.mpr fun w hw => ?_
    obtain ⟨v, hmem, hw⟩ := List.mem_flatMap.mp hw
    have := hv v hmem
    grind [mem_cut]

variable {rs : List Region}

/-- The pieces of regions that are reserved from an address on. -/
theorem mem_reserve {w : Region} {n old : ℕ}
    (hrs : ∀ v ∈ rs, Anonymous v ∧ v.prot = 3 ∧ v.stop ≤ old)
    (hw : w ∈ rs.flatMap (Vma.protect n old 0)) :
    Anonymous w ∧ (∃ v ∈ rs, v.start ≤ w.start ∧ w.stop ≤ v.stop) ∧
      (w.prot = 3 ∧ w.stop ≤ n ∨ w.prot = 0 ∧ n ≤ w.start) := by
  obtain ⟨v, hv, hw⟩ := List.mem_flatMap.mp hw
  obtain ⟨⟨hvlt, hflags, hfd, hnode⟩, hp, hstop⟩ := hrs v hv
  rcases mem_protect.mp hw with ⟨hm, hl, rfl⟩ | ⟨hm, rfl⟩ | ⟨hm, hl, rfl⟩ | ⟨hm, rfl⟩
  · exact ⟨⟨hl, hflags, hfd, hnode⟩, ⟨v, hv, le_rfl, hm.1.le⟩, .inl ⟨hp, le_rfl⟩⟩
  · refine ⟨⟨?_, hflags, hfd, hnode⟩, ⟨v, hv, ?_⟩, ?_⟩ <;> grind
  · omega
  · exact ⟨⟨hvlt, hflags, hfd, hnode⟩, ⟨w, hv, le_rfl, le_rfl⟩, by grind⟩

theorem has_reserve {n old a : ℕ} (hv : v ∈ rs)
    (hp : v.prot = 3) (hstop : v.stop ≤ old) (ha : v.Has a) :
    ∃ w ∈ rs.flatMap (Vma.protect n old 0), w.Has a ∧ (a < n → w.prot = 3) := by
  simp only [List.mem_flatMap, mem_protect]
  by_cases hm : v.Meets n old
  · by_cases hlt : a < n
    · exact ⟨v.before n, ⟨v, hv, .inl ⟨hm, ha.1.trans_lt hlt, rfl⟩⟩, ⟨ha.1, hlt⟩, fun _ => hp⟩
    · exact ⟨_, ⟨v, hv, .inr (.inl ⟨hm, rfl⟩)⟩, by grind, fun h => absurd h hlt⟩
  · exact ⟨v, ⟨v, hv, by grind⟩, ha, fun _ => hp⟩

theorem protect (h : Inv s) (hok : Quiet limit s (.protect t alloc))
    (hs : step limit s (.protect t alloc) = some s') : Inv s' := by
  simp only [step] at hs
  split at hs
  swap
  · cases hs
  next addr old hpc =>
  cases hs
  have hend := h.ends t
  rw [hpc] at hend
  obtain ⟨hbase, hlt, rfl⟩ := hend
  rw [Quiet, State.spared, hpc] at hok
  rw [kept_eq hok]
  have hprot := h.prot (by grind)
  have hrs : ∀ v ∈ s.vmas, Anonymous v ∧ v.prot = 3 ∧ v.stop ≤ pageAlignUp s.brkCurrent :=
    fun v hv => ⟨h.heap v hv, hprot v hv, (h.mem_bounds hv).2⟩
  have hmem := fun w => mem_reserve (w := w) (n := pageAlignUp addr) hrs
  have hhas := fun v a hv =>
    has_reserve (a := a) (n := pageAlignUp addr) hv (hrs v hv).2.1 (hrs v hv).2.2
  refine ⟨h.base_le, fun a => ?_, fun w hw => (hmem w hw).1, ?_, ?_, ?_, ?_, ?_, ?_, ?_⟩
  · rw [← h.covers a]
    grind
  · grind
  · grind
  · grind
  · intro hno
    exact absurd (if_pos rfl) (hno t _ _ _)
  · intro a ha
    obtain ⟨v, hv, hva, -⟩ : ∃ v ∈ s.vmas, v.Has a ∧ v.prot = 3 := by
      have := h.entry a ha
      grind
    by_cases hlo : a < pageAlignUp addr
    · obtain ⟨w, hw, hwa, hp⟩ := hhas v a hv hva
      exact .inl ⟨w, hw, hwa, hp hlo⟩
    · exact .inr ⟨t, _, _, _, if_pos rfl, by omega, hva.2.trans_le (hrs v hv).2.2⟩
  · grind
  · grind

theorem step {e : Event T} (h : Inv s) (hok : Quiet limit s e) (hs : step limit s e = some s') :
    Inv s' := by
  cases e with
  | call t addr refused alloc =>
    obtain ⟨hpc, rfl⟩ := guard_eq_some.mp hs
    exact h.call hok hpc
  | reread t =>
    obtain ⟨hpc, rfl⟩ := guard_eq_some.mp hs
    refine ⟨h.base_le, h.covers, h.heap, ?_, ?_, ?_, ?_, ?_, ?_, ?_⟩ <;>
      simp only [update_apply] <;> grind
  | protect t alloc => exact h.protect hok hs
  | batch t =>
    simp only [Brk.step] at hs
    split at hs
    · next addr old start hpc =>
      obtain ⟨hlt, rfl⟩ := guard_eq_some.mp hs
      refine ⟨h.base_le, h.covers, h.heap, ?_, ?_, ?_, ?_, ?_, ?_, ?_⟩ <;>
        simp only [update_apply] <;> grind
    · cases hs
  | remove t alloc =>
    simp only [Brk.step] at hs
    split at hs
    · next addr old start hpc =>
      obtain ⟨hle, rfl⟩ := guard_eq_some.mp hs
      have hend := h.ends t
      rw [hpc] at hend
      obtain ⟨hbase, hlt, rfl⟩ := hend
      obtain ⟨hr, hsp⟩ := hok
      rw [State.spared, hpc] at hsp
      exact h.trim (by grind) hbase hlt.le (h.sweep t _ _ _ hpc).2 (by grind) hsp
    · cases hs
  | fault page =>
    simp only [Brk.step] at hs
    split at hs
    · next v hv =>
      obtain ⟨hp, rfl⟩ := guard_eq_some.mp hs
      have h3 : v.prot = 3 := by
        grind
      refine { h with entry := fun a ha => ?_ }
      grind
    · cases hs

end Inv

/-- **The break describes the heap**, if no call changes it while another is between two of its
sections and the memory for nodes suffices. -/
theorem break_describes_heap (hi : Initial s0) (hok : Along (step limit) (Quiet limit) s0 es)
    (hr : run (step limit) s0 es = some s) :
    ((∀ t, s.pc t = .idle) → Covers s.vmas s.brkBase s.brkCurrent ∧
      (∀ v ∈ s.vmas, Anonymous v ∧ v.prot = 3) ∧
      ∀ a, s.entry a = true → ∃ v ∈ s.vmas, v.Has a) ∧
    ∀ t, s.pc t = .idle → s.ret t = s.left t := by
  have h : Inv s := run_invariant Inv (fun _ _ _ h hok hs => h.step hok hs) hi.inv hok hr
  refine ⟨fun hidle => ?_, h.idle⟩
  have hprot := h.prot (by simp [hidle])
  refine ⟨h.covers, fun v hv => ⟨h.heap v hv, hprot v hv⟩, fun a ha => ?_⟩
  have := h.entry a ha
  grind

/-- The threads `false` and `true` of a program that was loaded below an address. -/
def loaded (base : ℕ) : State Bool :=
  ⟨base, base, [], fun _ => false, fun _ => .idle, fun _ => base, fun _ => base⟩

theorem initial_loaded (base : ℕ) : Initial (loaded base) :=
  ⟨rfl, rfl, fun _ => rfl, fun _ => rfl, fun _ => rfl⟩

/-- A page is added and used, and given back while another thread asks for the break. -/
def givenBack : List (Event Bool) :=
  [.call false 0x11000 false fun _ => true, .fault 0x10000, .call false 0x10000 false fun _ => true,
    .call true 0 false fun _ => true, .protect false fun _ => true, .batch false,
    .remove false fun _ => true]

theorem break_describes_heap_givenBack : ∃ s,
    run (step 0xBFFFFFFF) (loaded 0x10000) givenBack = some s ∧ (∀ t, s.pc t = .idle) ∧
      Covers s.vmas s.brkBase s.brkCurrent ∧ s.ret true = s.left true := by
  have hok : Along (step 0xBFFFFFFF) (Quiet 0xBFFFFFFF) (loaded 0x10000) givenBack := by decide
  have hsome : (run (step 0xBFFFFFFF) (loaded 0x10000) givenBack).isSome := by decide
  have hidle : ∀ t, (get _ hsome).pc t = .idle := by decide +revert
  have h := break_describes_heap (initial_loaded _) hok (some_get hsome).symm
  exact ⟨_, (some_get hsome).symm, hidle, (h.1 hidle).1, h.2 true (hidle true)⟩

/-- While one thread shrinks the heap from two pages to one, the other adds a page. -/
def overtaken : List (Event Bool) :=
  [.call false 0x12000 false fun _ => true, .call false 0x11000 false fun _ => true,
    .call true 0x13000 false fun _ => true, .protect false fun _ => true, .batch false,
    .remove false fun _ => true]

/-- **A page stays mapped above the break.** -/
theorem mapped_above_break : Initial (loaded 0x10000) ∧
    ∃ s, run (step 0xBFFFFFFF) (loaded 0x10000) overtaken = some s ∧ (∀ t, s.pc t = .idle) ∧
      s.brkCurrent = 0x11000 ∧ ∃ v ∈ s.vmas, v.Has 0x12000 :=
  ⟨initial_loaded _, (run (step 0xBFFFFFFF) (loaded 0x10000) overtaken).get (by decide),
    (some_get _).symm, by decide⟩

end AvoryOS.Vmm.Brk
