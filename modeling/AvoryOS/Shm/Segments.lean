import AvoryOS.Lib.Transition
import AvoryOS.Vma.Frame
import Mathlib.Data.Set.Card

/-!
# System V shared memory

An attachment is a region whose `offset` field is the id of its segment, and a fault in it takes
the page whose index is the distance to the start of the region.  The cuts of `vma_remove` and
`vma_mprotect` treat the field as an offset in a file.

The system has the segments by their ids, the regions of the processes, and the entries of their
page tables for pages of segments.  Every call, every batch of `mprotect` and every fault is one
step; calls that fail change nothing and are no steps, and so permissions, namespaces and the
number of slots, which only make calls fail, are left out.  An entry has a reference on its frame,
which is then not used for anything else.

`attached` says of an address by which `shmat` it was attached, and is not part of the code.
-/

namespace AvoryOS.Shm

open Vma Region Function Transition Option

/-- An active `struct shm_segment`. -/
structure Segment where
  numPages : ℕ
  nattch : ℕ
  markedDestroy : Bool

structure State where
  seg : ℕ → Option Segment
  /-- `shm_next_id`. -/
  nextId : ℕ
  vmas : ℕ → List Region
  /-- The segment and the page in it of an entry, by process and address of the page. -/
  entry : ℕ × ℕ → Option (ℕ × ℕ)
  /-- Where and to which segment an address of a process was attached. -/
  attached : ℕ × ℕ → Option (ℕ × ℕ)

inductive Event
  | shmget (size : ℕ)
  /-- At an address that was given, or that `vma_find_gap` has found. -/
  | shmat (p shmid addr prot : ℕ)
  | shmdt (p addr : ℕ)
  /-- `shmctl` with `IPC_RMID`. -/
  | rmid (shmid : ℕ)
  /-- The entries that are not kept are those without `PAGE_FLAG_USER`. -/
  | fork (p child : ℕ) (keep : ℕ → Bool)
  | munmap (p start stop : ℕ)
  /-- One batch of `sys_mprotect`, which drops the lock after each. -/
  | mprotect (p start stop prot : ℕ)
  | exit (p : ℕ)
  /-- `vmm_handle_page_fault` at an address without an entry. -/
  | fault (p va : ℕ)

/-- `MPROTECT_BATCH_PAGES`. -/
def mprotectBatchPages : ℕ := 128

/-- `MAP_SYSV_SHM` is set. -/
abbrev Sysv (v : Region) : Prop := v.flags &&& mapSysvShm ≠ 0

/-- The address is in the range of the process. -/
abbrev In (p start stop : ℕ) (k : ℕ × ℕ) : Prop := k.1 = p ∧ start ≤ k.2 ∧ k.2 < stop

/-- The region that `shmat` adds, with `MAP_SHARED`. -/
@[grind] def attachment (shmid addr stop prot : ℕ) : Region :=
  ⟨addr, stop, prot, 1 ||| mapSysvShm, shmid, 0, -1, 0, 0, 0, 0, 0⟩

namespace State

/-- The entries of a range are torn down and its regions removed. -/
def unmap (s : State) (p start stop : ℕ) : State :=
  { s with
    vmas := update s.vmas p ((s.vmas p).flatMap (cut start stop))
    entry := fun k => if In p start stop k then none else s.entry k
    attached := fun k => if In p start stop k then none else s.attached k }

/-- `shmdt` on the segment, which `shm_destroy_segment` may end. -/
def detach (s : State) (shmid : ℕ) : State :=
  match s.seg shmid with
  | some g => { s with
      seg := update s.seg shmid
        (if g.markedDestroy ∧ g.nattch - 1 = 0 then none
          else some { g with nattch := g.nattch - 1 }) }
  | none => s

end State

def step (s : State) : Event → Option State
  | .shmget size =>
    if 0 < size ∧ size ≤ 2 ^ 24 ∧ s.nextId ≤ 0x7FFFFFFF then
      some { s with
        seg := update s.seg s.nextId (some ⟨(size + 4095) / 4096, 0, false⟩)
        nextId := s.nextId + 1 }
    else none
  | .shmat p shmid addr prot =>
    match s.seg (shmid % 2 ^ 32) with
    | some g =>
      let stop := addr + 4096 * g.numPages
      if addr % 4096 = 0 ∧ ∀ v ∈ s.vmas p, ¬v.Meets addr stop then
        some { s with
          seg := update s.seg (shmid % 2 ^ 32) (some { g with nattch := (g.nattch + 1) % 2 ^ 32 })
          vmas := update s.vmas p (attachment (shmid % 2 ^ 32) addr stop prot :: s.vmas p)
          attached := fun k =>
            if In p addr stop k then some (addr, shmid % 2 ^ 32) else s.attached k }
      else none
    | none => none
  | .shmdt p addr =>
    match (s.vmas p).find? fun v => v.Has addr with
    | some v =>
      if v.start = addr ∧ Sysv v then
        some ((s.unmap p addr v.stop).detach (v.offset % 2 ^ 32))
      else none
    | none => none
  | .rmid shmid =>
    (s.seg shmid).map fun g => { s with
      seg := update s.seg shmid
        (if g.nattch = 0 then none else some { g with markedDestroy := true }) }
  | .fork p child keep =>
    if s.vmas child = [] then
      some { s with
        vmas := update s.vmas child ((s.vmas p).map fun v => { v with flags := unlocked v.flags })
        entry := fun k =>
          if k.1 = child then if keep k.2 then s.entry (p, k.2) else none else s.entry k
        attached := fun k => if k.1 = child then s.attached (p, k.2) else s.attached k }
    else none
  | .munmap p start stop => if start < stop then some (s.unmap p start stop) else none
  | .mprotect p start stop prot =>
    if start < stop ∧ stop ≤ start + 4096 * mprotectBatchPages then
      some { s with vmas := update s.vmas p ((s.vmas p).flatMap (protect start stop prot)) }
    else none
  | .exit p =>
    some { s with
      vmas := update s.vmas p []
      entry := fun k => if k.1 = p then none else s.entry k
      attached := fun k => if k.1 = p then none else s.attached k }
  | .fault p va =>
    match (s.vmas p).find? fun v => v.Has va with
    | some v =>
      let page := va / 4096 * 4096
      let shmid := v.offset % 2 ^ 32
      let index := (page - v.start) / 4096 % 2 ^ 32
      if v.prot ≠ 0 ∧ Sysv v ∧ s.entry (p, page) = none ∧
          ∃ g, s.seg shmid = some g ∧ index < g.numPages then
        some { s with entry := update s.entry (p, page) (some (shmid, index)) }
      else none
    | none => none

/-- What remains of an attachment starts where it was attached. -/
def Whole (s : State) : Event → Bool
  | .munmap p start stop =>
    decide (∀ v ∈ s.vmas p, Sysv v → v.Meets start stop → v.stop ≤ stop)
  | .mprotect p start stop _ =>
    decide (∀ v ∈ s.vmas p, Sysv v → v.Meets start stop → start ≤ v.start ∧ v.stop ≤ stop)
  | _ => true

/-- No process is running and no segment was made yet. -/
structure Initial (s : State) : Prop where
  seg : ∀ id, s.seg id = none
  next : s.nextId = 1
  vmas : ∀ p, ∀ v ∈ s.vmas p, ¬Sysv v
  entry : ∀ k, s.entry k = none
  attached : ∀ k, s.attached k = none

/-! ## What attachments access -/

/-- The regions of a process say of its addresses where they were attached. -/
@[grind cases] structure Maps (rs : List Region) (att : ℕ → Option (ℕ × ℕ)) : Prop where
  shape : ∀ v ∈ rs, Sysv v →
    v.start < v.stop ∧ v.stop ≤ v.start + 2 ^ 24 ∧ v.start % 4096 = 0 ∧ v.offset < 2 ^ 32
  region : ∀ v ∈ rs, Sysv v → ∀ a, v.Has a → att a = some (v.start, v.offset)
  apart : ∀ v ∈ rs, ∀ w ∈ rs, Sysv v → Sysv w → v.start = w.start → v.stop = w.stop
  covered : ∀ a b id, att a = some (b, id) →
    ∃ v ∈ rs, Sysv v ∧ v.Has a ∧ v.start = b ∧ v.offset = id

namespace Maps

variable {rs : List Region} {att : ℕ → Option (ℕ × ℕ)} {start stop : ℕ}

section

variable (h : Maps rs att)
include h

theorem stop_eq {v w : Region} (hv : v ∈ rs) (hw : w ∈ rs) (hsv : Sysv v)
    (hsw : Sysv w) (hm : w.Meets v.start v.stop) : w.start = v.start ∧ w.stop = v.stop := by
  have hv' := h.shape v hv hsv
  have hw' := h.shape w hw hsw
  have h1 := h.region v hv hsv (max v.start w.start) (by grind)
  have h2 := h.region w hw hsw (max v.start w.start) (by grind)
  have hstart : w.start = v.start := by grind
  exact ⟨hstart, h.apart w hw v hv hsw hsv hstart⟩

theorem cut (hw : ∀ v ∈ rs, Sysv v → v.Meets start stop → v.stop ≤ stop) :
    Maps (rs.flatMap (cut start stop)) fun a => if start ≤ a ∧ a < stop then none else att a := by
  -- a part that remains is a region, or its lower end
  have hcut : ∀ w, w ∈ rs.flatMap (Vma.cut start stop) → Sysv w → ∃ v ∈ rs, Sysv v ∧
      w.start = v.start ∧ w.offset = v.offset ∧ w.start < w.stop ∧
        (v.Meets start stop ∧ w.stop = start ∨ ¬v.Meets start stop ∧ w.stop = v.stop) := by
    intro w hmem hs
    obtain ⟨v, hv, hw'⟩ := List.mem_flatMap.mp hmem
    rcases mem_cut.mp hw' with ⟨hm, hl, rfl⟩ | ⟨hm, hl, rfl⟩ | ⟨hm, rfl⟩
    · exact ⟨v, hv, hs, rfl, rfl, hl, .inl ⟨hm, rfl⟩⟩
    · exact absurd (hw v hv hs hm) (by omega)
    · exact ⟨w, hv, hs, rfl, rfl, (h.shape w hv hs).1, .inr ⟨hm, rfl⟩⟩
  refine ⟨?_, ?_, ?_, ?_⟩
  · grind
  · grind
  · intro v hv w hw' hsv hsw he
    obtain ⟨v1, hv1, hsv1, hv⟩ := hcut v hv hsv
    obtain ⟨w1, hw1, hsw1, hw'⟩ := hcut w hw' hsw
    grind
  intro a b id ha
  obtain ⟨v, hv, hs, hh, hb, hid⟩ := h.covered a b id (by grind)
  by_cases hm : v.Meets start stop
  · exact ⟨v.before start, List.mem_flatMap.mpr ⟨v, hv, mem_cut.mpr (by grind)⟩, hs,
      by grind, hb, hid⟩
  · exact ⟨v, List.mem_flatMap.mpr ⟨v, hv, mem_cut.mpr (by grind)⟩, hs, hh, hb, hid⟩

theorem protect {prot : ℕ}
    (hw : ∀ v ∈ rs, Sysv v → v.Meets start stop → start ≤ v.start ∧ v.stop ≤ stop) :
    Maps (rs.flatMap (protect start stop prot)) att := by
  -- a region keeps everything but its protection
  have hpart : ∀ w, w ∈ rs.flatMap (Vma.protect start stop prot) → Sysv w → ∃ v ∈ rs, Sysv v ∧
      w.start = v.start ∧ w.stop = v.stop ∧ w.offset = v.offset := by
    intro w hmem hs
    obtain ⟨v, hv, hw'⟩ := List.mem_flatMap.mp hmem
    rcases mem_protect.mp hw' with ⟨hm, hl, rfl⟩ | ⟨hm, rfl⟩ | ⟨hm, hl, rfl⟩ | ⟨hm, rfl⟩
    · exact absurd (hw v hv hs hm).1 (by omega)
    · grind
    · exact absurd (hw v hv hs hm).2 (by omega)
    · exact ⟨w, hv, hs, rfl, rfl, rfl⟩
  refine ⟨?_, ?_, ?_, ?_⟩
  · grind
  · grind
  · grind
  intro a b id ha
  obtain ⟨v, hv, hs, hh, hb, hid⟩ := h.covered a b id ha
  by_cases hm : v.Meets start stop
  · refine ⟨_, List.mem_flatMap.mpr ⟨v, hv, mem_protect.mpr (.inr (.inl ⟨hm, rfl⟩))⟩, hs, ?_⟩
    grind
  · exact ⟨v, List.mem_flatMap.mpr ⟨v, hv, mem_protect.mpr (by grind)⟩, hs, hh, hb, hid⟩

theorem add (prot : ℕ) {shmid addr n : ℕ} (hn : 0 < n) (hn' : n ≤ 4096)
    (hid : shmid < 2 ^ 32) (haddr : addr % 4096 = 0)
    (hfree : ∀ v ∈ rs, ¬v.Meets addr (addr + 4096 * n)) :
    Maps (attachment shmid addr (addr + 4096 * n) prot :: rs) fun a =>
      if addr ≤ a ∧ a < addr + 4096 * n then some (addr, shmid) else att a := by
  have hsys : Sysv (attachment shmid addr (addr + 4096 * n) prot) := by
    change (1 ||| mapSysvShm) &&& mapSysvShm ≠ 0
    decide
  refine ⟨?_, ?_, ?_, ?_⟩
  · grind
  · grind
  · grind
  · grind

theorem unlock : Maps (rs.map fun v => { v with flags := unlocked v.flags }) att := by
  have hsys : ∀ v : Region, Sysv { v with flags := unlocked v.flags } ↔ Sysv v := by
    intro v
    rw [Sysv, unlocked, Nat.and_assoc]
    rfl
  refine ⟨?_, ?_, ?_, ?_⟩ <;> simp only [List.mem_map]
  · grind
  · grind
  · grind
  intro a b id ha
  obtain ⟨v, hv, hs, hh⟩ := h.covered a b id ha
  exact ⟨_, ⟨v, hv, rfl⟩, (hsys v).mpr hs, hh⟩

end

end Maps

@[grind cases] structure Inv (s : State) : Prop where
  next : s.nextId ≤ 2 ^ 31
  segments : ∀ id g, s.seg id = some g → id < s.nextId ∧ 0 < g.numPages ∧ g.numPages ≤ 4096
  maps : ∀ p, Maps (s.vmas p) fun a => s.attached (p, a)
  entry : ∀ p a x, s.entry (p, a) = some x →
    ∃ b id, s.attached (p, a) = some (b, id) ∧ x = (id, (a - b) / 4096)

theorem Initial.inv {s : State} (h : Initial s) : Inv s := by
  obtain ⟨hseg, hnext, hvmas, hentry, hatt⟩ := h
  refine ⟨by omega, ?_, fun p => ⟨?_, ?_, ?_, ?_⟩, ?_⟩ <;> grind

namespace Inv

variable {s s' : State} {p start stop : ℕ}

section

variable (h : Inv s)
include h

theorem remap {vmas : ℕ → List Region} {entry attached : ℕ × ℕ → Option (ℕ × ℕ)}
    (hother : ∀ q, q ≠ p → vmas q = s.vmas q ∧
      ∀ a, entry (q, a) = s.entry (q, a) ∧ attached (q, a) = s.attached (q, a))
    (hmaps : Maps (vmas p) fun a => attached (p, a)) (hentry : ∀ a x, entry (p, a) = some x →
      ∃ b id, attached (p, a) = some (b, id) ∧ x = (id, (a - b) / 4096)) :
    Inv { s with vmas, entry, attached } := by
  refine ⟨h.next, h.segments, fun q => ?_, fun q a x hx => ?_⟩ <;> by_cases hq : q = p
  · exact hq ▸ hmaps
  · obtain ⟨hv, ha⟩ := hother q hq
    simpa only [hv, fun a => (ha a).2] using h.maps q
  · subst hq
    exact hentry a x hx
  obtain ⟨hv, ha⟩ := hother q hq
  simp only [(ha a).2]
  exact h.entry q a x ((ha a).1 ▸ hx)

theorem unmap (hw : ∀ v ∈ s.vmas p, Sysv v → v.Meets start stop → v.stop ≤ stop) :
    Inv (s.unmap p start stop) := by
  refine h.remap (p := p) (by grind) ?_ (by grind)
  simpa [In] using (h.maps p).cut hw

theorem set_seg {seg : ℕ → Option Segment}
    (hs : ∀ id g, seg id = some g → ∃ g', s.seg id = some g' ∧ g.numPages = g'.numPages) :
    Inv { s with seg } := by
  refine { h with segments := fun id g hg => ?_ }
  obtain ⟨g', hg', hn⟩ := hs id g hg
  rw [hn]
  exact h.segments id g' hg'

theorem detach (shmid : ℕ) : Inv (s.detach shmid) := by
  unfold State.detach
  split
  · exact h.set_seg (by grind)
  · exact h

theorem shmat {shmid addr prot : ℕ}
    (hs : step s (.shmat p shmid addr prot) = some s') : Inv s' := by
  simp only [step] at hs
  split at hs
  swap
  · cases hs
  next g hg =>
  obtain ⟨⟨haddr, hfree⟩, rfl⟩ := guard_eq_some.mp hs
  obtain ⟨-, h0, hn⟩ := h.segments _ g hg
  have hadd := (h.maps p).add prot h0 hn (Nat.mod_lt shmid (by decide)) haddr hfree
  have hseg : Inv { s with
      seg := update s.seg (shmid % 2 ^ 32) (some { g with nattch := (g.nattch + 1) % 2 ^ 32 }) } :=
    h.set_seg (by grind)
  refine hseg.remap (p := p) (by grind) (by simpa [In] using hadd) ?_
  intro a x hx
  obtain ⟨b, id, ha, rfl⟩ := h.entry p a x hx
  obtain ⟨v, hv, -, hh, -⟩ := (h.maps p).covered a b id ha
  refine ⟨b, id, ?_, rfl⟩
  grind

theorem fault {va : ℕ} (hs : step s (.fault p va) = some s') : Inv s' := by
  simp only [step] at hs
  split at hs
  swap
  · cases hs
  next v hv =>
  obtain ⟨⟨-, hsys, -, -⟩, rfl⟩ := guard_eq_some.mp hs
  have hmem := List.mem_of_find?_eq_some hv
  obtain ⟨hlt, hlen, halign, hid⟩ := (h.maps p).shape v hmem hsys
  have hatt := (h.maps p).region v hmem hsys (va / 4096 * 4096) (by grind)
  refine h.remap (fun q hq => ⟨rfl, by grind⟩) (h.maps p) ?_
  intro a x hx
  by_cases ha : a = va / 4096 * 4096
  · subst ha
    refine ⟨_, _, hatt, ?_⟩
    grind
  · exact h.entry p a x (by grind)

theorem step {e : Event} (hok : Whole s e) (hs : step s e = some s') : Inv s' := by
  cases e with
  | shmget size =>
    obtain ⟨hg, rfl⟩ := guard_eq_some.mp hs
    refine ⟨by dsimp only; omega, fun id g hid => ?_, h.maps, h.entry⟩
    have := h.segments id g
    grind
  | shmat p shmid addr prot => exact h.shmat hs
  | shmdt p addr =>
    simp only [Shm.step] at hs
    split at hs
    · next v hv =>
      obtain ⟨⟨rfl, hsys⟩, rfl⟩ := guard_eq_some.mp hs
      refine (h.unmap fun w hw hsw hm => ?_).detach _
      exact ((h.maps p).stop_eq (List.mem_of_find?_eq_some hv) hw hsys hsw hm).2.le
    · cases hs
  | rmid shmid =>
    obtain ⟨g, hg, rfl⟩ := map_eq_some_iff.mp hs
    exact h.set_seg (by grind)
  | fork p child keep =>
    obtain ⟨hnil, rfl⟩ := guard_eq_some.mp hs
    refine h.remap (p := child) (by grind) ?_ (by grind)
    simpa using (h.maps p).unlock
  | munmap p start stop =>
    obtain ⟨-, rfl⟩ := guard_eq_some.mp hs
    exact h.unmap (by simpa [Whole] using hok)
  | mprotect p start stop prot =>
    obtain ⟨-, rfl⟩ := guard_eq_some.mp hs
    refine h.remap (by grind) ?_ (h.entry p)
    simpa using (h.maps p).protect (by simpa [Whole] using hok)
  | exit p =>
    cases hs
    refine h.remap (p := p) (by grind) ?_ (by grind)
    refine ⟨?_, ?_, ?_, ?_⟩ <;> simp
  | fault p va => exact h.fault hs

end

end Inv

variable {s0 s : State} {es : List Event}

def boot : State := ⟨fun _ => none, 1, fun _ => [], fun _ => none, fun _ => none⟩

/-- The attachments of a segment that are left, by process and address. -/
def Copies (s : State) (id : ℕ) : Set (ℕ × ℕ) := {k | ∃ a, s.attached (k.1, a) = some (k.2, id)}

/-- The count is exact, a segment marked for its end is attached, and one that has ended is not. -/
def Exact (s : State) (id : ℕ) : Prop :=
  match s.seg id with
  | some g => (Copies s id).encard = g.nattch ∧ (g.markedDestroy = true → g.nattch ≠ 0)
  | none => Copies s id = ∅

variable {e : Event}

namespace Inv

variable {s' : State} (id : ℕ)

variable {p : ℕ}

end Inv

variable {s' : State} {id : ℕ}

theorem Exact.of_eq (h : Exact s id) (hseg : s'.seg id = s.seg id)
    (hc : Copies s' id = Copies s id) : Exact s' id := by
  rw [Exact, hseg, hc]
  exact h

/-- A segment that is marked while attached ends with `shmdt`. -/
def detached : List Event :=
  [.shmget 4096, .shmat 1 1 0x10000 3, .rmid 1, .fault 1 0x10000, .shmdt 1 0x10000]

end AvoryOS.Shm
