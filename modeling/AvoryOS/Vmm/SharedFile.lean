import AvoryOS.Lib.Holders
import AvoryOS.Lib.Transition

/-!
# Shared mappings

The pages of mappings with `MAP_SHARED` in a family of address spaces, with the page cache and the
backing of one file.  A mapping of the file has the cache's frame, and each of its entries a
reference on the frame; an anonymous one gets a frame at its first fault, which a clone aliases
without a reference.  A store reaches the frame at once, and leaves its mark in the entry
(`PAGE_FLAG_D`); the exit of a process hands the mark to the page cache, other teardowns do not.
`sys_mremap` leaves the flags of a mapping that it enlarges or moves, and takes the file from it.

`last` is what was stored last to each page of the file, and is not part of the code.  A section on
a range is a sequence of the events of its pages.
-/

namespace AvoryOS.Vmm.SharedFile

open Holders Transition Function Option

/-- What a page of an address space is mapped to. -/
inductive Area
  | file (p : ℕ)
  /-- A mapping with `MAP_SHARED_VALIDATE` has the bits of `MAP_SHARED` and of `MAP_PRIVATE`. -/
  | validate (p : ℕ)
  /-- `MAP_PAGECACHE` without a file. -/
  | orphan
  | anonymous
deriving DecidableEq

def Area.page : Area → Option ℕ
  | file p | validate p => some p
  | orphan | anonymous => none

/-- What `sys_mremap` leaves. -/
def Area.remapped : Area → Area
  | anonymous => anonymous
  | _ => orphan

/-- Who has a reference on a frame: the entry of a page of an address space, or the page cache for
a page of the file. -/
inductive Holder
  | entry (k : ℕ × ℕ)
  | cache (p : ℕ)
deriving DecidableEq

structure State (α : Type) where
  area : ℕ × ℕ → Option Area
  held : Holder → Option ℕ
  /-- Zero for a frame in the allocator. -/
  ref : ℕ → ℕ
  data : ℕ → α
  /-- `PAGE_FLAG_D`. -/
  marked : ℕ × ℕ → Bool
  dirty : ℕ → Bool
  /-- The page is being written back; `true` when it was marked dirty again meanwhile. -/
  writeback : ℕ → Option Bool
  disk : ℕ → α
  last : ℕ → α

inductive Event (α : Type)
  /-- `sys_mmap`, or a page that `sys_mremap` adds to a mapping. -/
  | mmap (k : ℕ × ℕ) (a : Area)
  /-- The page cache reads a page into a new frame. -/
  | fill (p f : ℕ)
  | fault (k : ℕ × ℕ)
  /-- A fault in a mapping without a file, with a new frame. -/
  | faultAnon (k : ℕ × ℕ) (f : ℕ)
  /-- A write fault in a mapping with `MAP_SHARED_VALIDATE`, with a new frame. -/
  | faultCopy (k : ℕ × ℕ) (f : ℕ)
  | store (k : ℕ × ℕ) (x : α)
  /-- `clone_table_vma` on one page, into the address space `c`. -/
  | clone (k : ℕ × ℕ) (c : ℕ)
  /-- `teardown_range_locked`: `sys_munmap` and shrinking, or `MADV_DONTNEED`, which keeps the
  mapping. -/
  | teardown (k : ℕ × ℕ) (keep : Bool)
  /-- `vmm_free_user_pages_vma`. -/
  | exit (k : ℕ × ℕ)
  /-- `sys_mremap` enlarges the mapping of the page in place. -/
  | mremap (k : ℕ × ℕ)
  /-- `sys_mremap` moves a page to `j`, as a copy in a new frame. -/
  | mremapMove (k j : ℕ × ℕ) (f : ℕ)
  /-- `vfs_cache_sync` writes a dirty page. -/
  | syncWrite (p : ℕ)
  | syncFinish (p : ℕ)
  /-- `vfs_cache_reclaim` and `vfs_cache_clear_unused`. -/
  | reclaim (p : ℕ)
  /-- `vfs_cache_clear` after a `vfs_truncate` that grows the file. -/
  | clear (p : ℕ)

section System

variable {α : Type} [Zero α]

namespace State

def take (s : State α) (h : Holder) (f : ℕ) : State α :=
  { s with
    held := update s.held h (some f)
    ref := update s.ref f (s.ref f + 1) }

def put (s : State α) (h : Holder) : State α :=
  match s.held h with
  | some f => { s with
      held := update s.held h none
      ref := update s.ref f (s.ref f - 1) }
  | none => s

/-- What a fault on a page of the file finds. -/
def view (s : State α) (p : ℕ) : α :=
  match s.held (.cache p) with
  | some f => s.data f
  | none => s.disk p

/-- `vfs_read`, which asks the page cache if the node has `FS_PAGE_CACHE`. -/
def read (s : State α) (pageCache : Bool) (p : ℕ) : α := if pageCache then s.view p else s.disk p

/-- An entry is cleared; those of anonymous shared mappings have no reference to give back. -/
def unmap (s : State α) (k : ℕ × ℕ) : State α :=
  { (if s.area k = some .anonymous then { s with held := update s.held (.entry k) none }
      else s.put (.entry k)) with
    marked := update s.marked k false }

/-- `vfs_cache_mark_dirty` for a marked entry. -/
def handOver (s : State α) (k : ℕ × ℕ) : State α :=
  match (s.area k).bind Area.page, s.marked k with
  | some p, true => { s with
      dirty := update s.dirty p true
      writeback := update s.writeback p (if s.writeback p = none then none else some true) }
  | _, _ => s

/-- In a mapping that is private, too, the page of the cache is not written to. -/
def readOnly (s : State α) (a : Area) (f : ℕ) : Bool :=
  match a with
  | .validate p => s.held (.cache p) = some f
  | _ => false

def setArea (s : State α) (k : ℕ × ℕ) (a : Option Area) : State α :=
  { s with area := update s.area k a }

abbrev Free (s : State α) (k : ℕ × ℕ) : Prop := s.area k = none ∧ s.held (.entry k) = none

end State

def step (s : State α) : Event α → Option (State α)
  | .mmap k a => if s.Free k then some (s.setArea k (some a)) else none
  | .fill p f =>
    if s.held (.cache p) = none ∧ s.ref f = 0 then
      some { s.take (.cache p) f with
        data := update s.data f (s.disk p)
        dirty := update s.dirty p false }
    else none
  | .fault k =>
    match (s.area k).bind Area.page, s.held (.entry k) with
    | some p, none => (s.held (.cache p)).map (s.take (.entry k))
    | _, _ => none
  | .faultAnon k f =>
    if (s.area k = some .orphan ∨ s.area k = some .anonymous) ∧ s.held (.entry k) = none ∧
        s.ref f = 0 then
      some { s.take (.entry k) f with data := update s.data f 0 }
    else none
  | .faultCopy k f =>
    match s.area k with
    | some (.validate p) =>
      if (s.held (.entry k)).all (s.readOnly (.validate p)) ∧ s.ref f = 0 then
        some { (s.put (.entry k)).take (.entry k) f with data := update s.data f (s.view p) }
      else none
    | _ => none
  | .store k x =>
    match s.held (.entry k), s.area k with
    | some f, some a =>
      if s.readOnly a f then none
      else some { s with
        data := update s.data f x
        marked := update s.marked k true
        last := match a.page with
          | some p => update s.last p x
          | none => s.last }
    | _, _ => none
  | .clone k c =>
    let j := (c, k.2)
    if s.Free j then
      match s.held (.entry k) with
      | some f => some
          { (if s.area k = some .anonymous then { s with held := update s.held (.entry j) (some f) }
              else s.take (.entry j) f).setArea j (s.area k) with
            marked := update s.marked j (s.marked k) }
      | none => some (s.setArea j (s.area k))
    else none
  | .teardown k keep => some ((s.unmap k).setArea k (if keep then s.area k else none))
  | .exit k => some (((s.handOver k).unmap k).setArea k none)
  | .mremap k => some (s.setArea k ((s.area k).map Area.remapped))
  | .mremapMove k j f =>
    match s.held (.entry k) with
    | some g =>
      if s.Free j ∧ s.ref f = 0 then
        some { (((s.unmap k).setArea k none).take (.entry j) f).setArea j
            ((s.area k).map Area.remapped) with
          data := update s.data f (s.data g) }
      else none
    | none => none
  | .syncWrite p =>
    match s.held (.cache p) with
    | some f =>
      if s.dirty p ∧ s.writeback p = none then
        some { s with
          disk := update s.disk p (s.data f)
          writeback := update s.writeback p (some false) }
      else none
    | none => none
  | .syncFinish p =>
    (s.writeback p).map fun again => { s with
      dirty := update s.dirty p again
      writeback := update s.writeback p none }
  | .reclaim p =>
    match s.held (.cache p) with
    | some f =>
      if s.dirty p = false ∧ s.writeback p = none ∧ s.ref f = 1 then some (s.put (.cache p))
      else none
    | none => none
  | .clear p => some { s.put (.cache p) with writeback := update s.writeback p none }

structure Initial (s : State α) : Prop where
  area : ∀ k, s.area k = none
  held : ∀ h, s.held h = none
  ref : ∀ f, s.ref f = 0
  marked : ∀ k, s.marked k = false
  writeback : ∀ p, s.writeback p = none
  last : s.last = s.disk

/-- Every mapping is of the file, with `MAP_SHARED`, and stays so; an entry with a mark goes away by
an exit; the file is not resized. -/
def Careful (s : State α) : Event α → Bool
  | .mmap _ (.file _) => true
  | .mmap .. | .mremap _ | .mremapMove .. | .clear _ => false
  | .teardown k _ => !s.marked k
  | _ => true

end System

section Invariant

variable {α : Type} {s s' : State α} {k : ℕ × ℕ} {f p : ℕ}

@[grind] def Marked (s : State α) (p : ℕ) : Prop :=
  ∃ k, s.area k = some (.file p) ∧ s.marked k = true

@[grind cases] structure Inv (s : State α) : Prop where
  counted : Counted s.held s.ref
  files : ∀ k a, s.area k = some a → ∃ p, a = .file p
  mapped : ∀ k f, s.held (.entry k) = some f →
    ∃ p, s.area k = some (.file p) ∧ s.held (.cache p) = some f
  alone : ∀ p q f, s.held (.cache p) = some f → s.held (.cache q) = some f → p = q
  cached : ∀ p f, s.held (.cache p) = some f → s.data f = s.last p
  marked : ∀ k, s.marked k = true → ∃ f, s.held (.entry k) = some f
  uncached : ∀ p, s.held (.cache p) = none → s.disk p = s.last p ∧ s.writeback p = none
  clean : ∀ p, s.dirty p = false → s.disk p ≠ s.last p → Marked s p
  written : ∀ p, s.writeback p = some false → s.disk p ≠ s.last p → Marked s p

theorem Initial.inv (h : Initial s) : Inv s := by
  obtain ⟨ha, hh, hr, hm, hw, hl⟩ := h
  refine ⟨fun f => ?_, ?_, ?_, ?_, ?_, ?_, ?_, ?_, ?_⟩
  · simp [hh, hr]
  all_goals simp [ha, hh, hm, hw, hl]

theorem unmap_held (s : State α) (k : ℕ × ℕ) : (s.unmap k).held (.entry k) = none := by
  unfold State.unmap State.put
  split
  · simp
  · split <;> simp_all

namespace Inv

/-- A page without an entry gets a mapping of the file, or loses it. -/
theorem setArea {a : Option Area} (h : Inv s) (hk : s.held (.entry k) = none)
    (ha : ∀ b, a = some b → ∃ p, b = .file p) : Inv (s.setArea k a) := by
  have hm := h.marked k
  simp only [State.setArea]
  refine ⟨h.counted, ?_, ?_, ?_, ?_, ?_, ?_, ?_, ?_⟩ <;> grind

/-- An entry is cleared that has no mark, or whose mark the page cache knows of. -/
theorem unmap (h : Inv s)
    (hm : ∀ p, s.marked k = true → s.area k = some (.file p) →
      s.dirty p = true ∧ s.writeback p ≠ some false) : Inv (s.unmap k) := by
  cases hf : s.held (.entry k) with
  | none =>
    have hk : s.marked k = false := by grind
    have hsame : update s.marked k false = s.marked := by rw [← hk, update_eq_self]
    have harea : s.area k ≠ some .anonymous := by grind
    simpa only [State.unmap, State.put, hf, if_neg harea, hsame] using h
  | some f =>
    obtain ⟨p, hp, hpf⟩ := h.mapped k f hf
    simp only [State.unmap, State.put, hp, hf, reduceCtorEq, some.injEq, if_false]
    refine ⟨h.counted.put hf, ?_, ?_, ?_, ?_, ?_, ?_, ?_, ?_⟩ <;>
      simp only [Marked, update_apply] <;> grind

theorem markDirty (h : Inv s) (p : ℕ) :
    Inv { s with
      dirty := update s.dirty p true
      writeback := update s.writeback p (if s.writeback p = none then none else some true) } := by
  refine ⟨h.counted, ?_, ?_, ?_, ?_, ?_, ?_, ?_, ?_⟩ <;> grind

theorem area_eq (h : Inv s) (hp : (s.area k).bind Area.page = some p) :
    s.area k = some (.file p) := by
  obtain ⟨a, ha, hap⟩ := bind_eq_some_iff.mp hp
  obtain ⟨q, rfl⟩ := h.files k a ha
  cases hap
  exact ha

theorem exit (h : Inv s) : Inv (((s.handOver k).unmap k).setArea k none) := by
  have hinv : Inv ((s.handOver k).unmap k) ∧ ((s.handOver k).unmap k).held (.entry k) = none := by
    unfold State.handOver
    split
    · next p hp hk =>
      have h' := h.markDirty p
      exact ⟨h'.unmap (by grind [h.area_eq hp]), unmap_held _ k⟩
    · next hne =>
      refine ⟨h.unmap fun p hk hp => ?_, unmap_held s k⟩
      exact absurd hk (hne p (by simp [hp, Area.page]))
  exact hinv.1.setArea hinv.2 (by simp)

variable [Zero α]

section

variable (h : Inv s)
include h

theorem mmap {a : Area} (hok : Careful s (.mmap k a)) (hs : step s (.mmap k a) = some s') :
    Inv s' := by
  simp only [step, ite_none_right_eq_some, some.injEq] at hs
  obtain ⟨hfree, rfl⟩ := hs
  cases a with
  | file q => exact h.setArea hfree.2 fun b hb => ⟨q, (some.inj hb).symm⟩
  | validate | orphan | anonymous => cases hok

theorem fill (hs : step s (.fill p f) = some s') : Inv s' := by
  have hzero := fun f => (h.counted.ref_eq_zero_iff f).mp
  simp only [step] at hs
  split at hs
  · next hf =>
    cases hs
    refine ⟨h.counted.take hf.1 f, ?_, ?_, ?_, ?_, ?_, ?_, ?_, ?_⟩ <;>
      simp only [State.take] <;> grind
  · cases hs

theorem fault (hs : step s (.fault k) = some s') : Inv s' := by
  simp only [step] at hs
  split at hs
  · next p hp hk =>
    have ha := h.area_eq hp
    obtain ⟨f, hf, rfl⟩ := map_eq_some_iff.mp hs
    refine ⟨h.counted.take hk f, ?_, ?_, ?_, ?_, ?_, ?_, ?_, ?_⟩ <;>
      simp only [State.take] <;> grind
  · cases hs

theorem store {x : α} (hs : step s (.store k x) = some s') : Inv s' := by
  simp only [step] at hs
  split at hs
  · next f a hf ha =>
    obtain ⟨p, hp, hpf⟩ := h.mapped k f hf
    obtain rfl := some.inj (ha.symm.trans hp)
    simp only [State.readOnly, Area.page, Bool.false_eq_true, if_false, some.injEq] at hs
    subst hs
    refine ⟨h.counted, ?_, ?_, ?_, ?_, ?_, ?_, ?_, ?_⟩ <;>
      simp only [Marked, update_apply] <;> grind
  · cases hs

theorem clone {c : ℕ} (hs : step s (.clone k c) = some s') : Inv s' := by
  simp only [step] at hs
  split at hs
  swap
  · cases hs
  next hfree =>
  split at hs
  · next f hf =>
    obtain ⟨p, hp, hpf⟩ := h.mapped k f hf
    simp only [hp, reduceCtorEq, some.injEq, if_false] at hs
    subst hs
    refine ⟨h.counted.take hfree.2 f, ?_, ?_, ?_, ?_, ?_, ?_, ?_, ?_⟩ <;>
      simp only [Marked, State.setArea, State.take, update_apply] <;> grind
  · cases hs
    exact h.setArea hfree.2 (h.files k)

theorem syncWrite (hs : step s (.syncWrite p) = some s') : Inv s' := by
  simp only [step] at hs
  split at hs
  · split at hs
    · cases hs
      refine ⟨h.counted, ?_, ?_, ?_, ?_, ?_, ?_, ?_, ?_⟩ <;> grind
    · cases hs
  · cases hs

theorem syncFinish (hs : step s (.syncFinish p) = some s') : Inv s' := by
  obtain ⟨again, hw, rfl⟩ := map_eq_some_iff.mp hs
  refine ⟨h.counted, ?_, ?_, ?_, ?_, ?_, ?_, ?_, ?_⟩ <;> grind

theorem reclaim (hs : step s (.reclaim p) = some s') : Inv s' := by
  simp only [step] at hs
  split at hs
  swap
  · cases hs
  next f hf =>
  split at hs
  · next hp =>
    cases hs
    -- no entry has the frame, so no entry has a mark
    have hnone : ∀ k, s.held (.entry k) ≠ some f := fun k hk =>
      nomatch h.counted.holder_eq hp.2.2 hf hk
    simp only [State.put, hf]
    refine ⟨h.counted.put hf, ?_, ?_, ?_, ?_, ?_, ?_, ?_, ?_⟩ <;> grind
  · cases hs

theorem step {e : Event α} (hok : Careful s e) (hs : step s e = some s') : Inv s' := by
  cases e with
  | mmap k a => exact h.mmap hok hs
  | fill p f => exact h.fill hs
  | fault k => exact h.fault hs
  | faultAnon k f =>
    simp only [SharedFile.step] at hs
    grind
  | faultCopy k f =>
    simp only [SharedFile.step] at hs
    grind
  | store k x => exact h.store hs
  | clone k c => exact h.clone hs
  | teardown k keep =>
    cases hs
    have hm : s.marked k = false := by simpa [Careful] using hok
    refine (h.unmap fun p hk => by simp [hm] at hk).setArea (unmap_held s k) fun b hb => ?_
    split at hb
    · exact h.files k b hb
    · cases hb
  | exit k =>
    cases hs
    exact h.exit
  | syncWrite p => exact h.syncWrite hs
  | syncFinish p => exact h.syncFinish hs
  | reclaim p => exact h.reclaim hs
  | mremap | mremapMove | clear => cases hok

end

end Inv

variable [Zero α]

variable {s0 : State α} {es : List (Event α)}

end Invariant

/-! ## Runs on one page -/

def blank : State ℕ where
  area _ := none
  held _ := none
  ref _ := 0
  data _ := 0
  marked _ := false
  dirty _ := false
  writeback _ := none
  disk _ := 0
  last _ := 0

end AvoryOS.Vmm.SharedFile
