import AvoryOS.Vmm.Brk

/-!
# Failing `mmap`

`sys_mmap` of a thread that is not disturbed by others, up to the number of an error or the address
of the mapping.  The environment decides which nodes `vma_add` gets, what `vma_find_gap` finds, and
what a driver does with the translations.
-/

namespace AvoryOS.Vmm.Mmap

open Vma Brk List

structure Space where
  vmas : List Region
  /-- The translations, by the addresses of the pages. -/
  entry : ℕ → Option ℕ
  /-- `mmap_next_addr`. -/
  nextAddr : ℕ
  brkCurrent : ℕ
  compat32 : Bool

structure Args where
  (addr length prot flags fd offset : ℕ)

namespace Args

variable (c : Args)

/-- `aligned_len`. -/
def len : ℕ := pageAlignUp c.length % 2 ^ 64

/-- The flags without `MAP_PAGECACHE`. -/
def userFlags : ℕ := c.flags - (c.flags &&& 0x400000000)

/-- `MAP_FIXED` or `MAP_FIXED_NOREPLACE`. -/
abbrev Fixed : Prop := c.userFlags &&& 0x10 ≠ 0 ∨ c.userFlags &&& 0x100000 ≠ 0

end Args

/-- The node of a file, with the flags of its mount. -/
structure FileNode where
  address : ℕ
  (readonly noexec sharedOnly regular : Bool)
  /-- The handler of a driver: what it returns for a range, and the translations it leaves. -/
  mmap : Option ((ℕ → Option ℕ) → ℕ → ℕ → ℕ × (ℕ → Option ℕ))

structure Env where
  node : ℕ → Option FileNode
  alloc : Region → Bool
  findGap : List Region → ℕ → ℕ → ℕ → ℕ

def userMax : ℕ := 0x7FFFFFFFFFFF

namespace Space

variable (s : Space)

def regionBase : ℕ := if s.compat32 then 0x40000000 else 0x7F0000000000

def regionLimit : ℕ := if s.compat32 then 0xB0000000 else 0x7FF000000000

/-- `vma_remove`: a part that remains of a region needs a node. -/
def remove (E : Env) (vaddr len : ℕ) : Space :=
  { s with vmas := kept E.alloc s.vmas (s.vmas.flatMap (cut vaddr (vaddr + len))) }

/-- `mmap_gap_release`, or the removal of the placeholder before its successor is added. -/
def release (E : Env) (reserved : Bool) (vaddr len : ℕ) : Space :=
  if reserved then s.remove E vaddr len else s

/-- `teardown_range` and `vma_remove`. -/
def clear (E : Env) (vaddr len : ℕ) : Space :=
  { s.remove E vaddr len with
    entry := fun a => if vaddr ≤ a ∧ a < vaddr + len then none else s.entry a }

end Space

/-- A range that is chosen, whether a placeholder holds it, and the cursor once it is mapped. -/
structure Place where
  vaddr : ℕ
  reserved : Bool
  next : ℕ

def mapping (vaddr len prot flags offset : ℕ) (fd : ℤ) (node : ℕ) : Region :=
  ⟨vaddr, vaddr + len, prot, flags, offset, 0, fd, node, 0, 0, 0, 0⟩

section

variable (E : Env) (s : Space) (c : Args) (flags vaddr len : ℕ)

def vmaAdd (r : Region) : Option Space :=
  if (∀ v ∈ s.vmas, ¬v.Meets r.start r.stop) ∧ E.alloc r then some { s with vmas := r :: s.vmas }
  else none

/-- The last section of a call, with the new cursor. -/
def install (r : Region) (next : ℕ) : Except ℕ ℕ × Space :=
  match vmaAdd E s r with
  | none => (.error 12, s)
  | some s' => (.ok r.start, { s' with nextAddr := next })

def mapAnonymous (next : ℕ) : Except ℕ ℕ × Space :=
  install E s (mapping vaddr len c.prot
    (if flags &&& 0x40000 ≠ 0 then flags ||| 0x200000000 else flags) 0 (-1) 0) next

/-- The mount or the file forbids the write access that is asked for. -/
abbrev DenyWrite (n : FileNode) : Prop := flags &&& 3 = 1 ∧ n.readonly

abbrev Denied (n : FileNode) : Prop :=
  c.prot &&& 2 ≠ 0 ∧ DenyWrite flags n ∨ c.prot &&& 4 ≠ 0 ∧ n.noexec

/-- The handler that is called. -/
def handler (n : FileNode) : Option ((ℕ → Option ℕ) → ℕ → ℕ → ℕ × (ℕ → Option ℕ)) :=
  if n.sharedOnly ∧ flags &&& 3 = 2 then none else n.mmap

/-- The part of a file-backed mapping that runs after its range is chosen. -/
def mapFile (reserved : Bool) : Except ℕ ℕ × Space :=
  match E.node (c.fd % 2 ^ 32) with
  | none => (.error 9, s.release E reserved vaddr len)
  | some n =>
    let permissions := (if DenyWrite flags n then 0x800000000 else 0) |||
      if n.noexec then 0x1000000000 else 0
    let map (vaddr flags : ℕ) :=
      mapping vaddr len c.prot (flags ||| permissions) c.offset (c.fd % 2 ^ 32) n.address
    if Denied c flags n then (.error 13, s.release E reserved vaddr len)
    else
      match handler flags n with
      | some f =>
        let r := f s.entry vaddr len
        let s' := { s with entry := r.2 }.release E reserved vaddr len
        if 2 ^ 64 - 4095 ≤ r.1 then (.error (if r.1 = 2 ^ 64 - 1 then 12 else 2 ^ 64 - r.1), s')
        else install E s' (map r.1 flags) s.nextAddr
      | none =>
        let s' := s.release E reserved vaddr len
        if ¬n.regular ∨ c.offset % 4096 ≠ 0 then (.error 22, s')
        else install E s' (map vaddr (flags ||| 0x400000000)) s.nextAddr

def chooseFixed : Except ℕ Place × Space :=
  if c.addr = 0 ∨ c.addr % 4096 ≠ 0 then (.error 22, s)
  else if userMax < c.addr ∨ userMax - c.addr < len - 1 then (.error 12, s)
  else if flags &&& 0x100000 ≠ 0 ∧ ∃ v ∈ s.vmas, v.Meets c.addr (c.addr + len) then (.error 17, s)
  else
    let next :=
      if flags &&& 0x20 = 0 ∧ c.addr < s.regionLimit ∧ s.regionBase < c.addr + len then
        max s.nextAddr (min (c.addr + len) s.regionLimit)
      else s.nextAddr
    (.ok ⟨c.addr, false, next⟩, { s.clear E c.addr len with nextAddr := next })

/-- A range that is held by the cursor. -/
def chooseAt (next : ℕ) : Except ℕ Place × Space :=
  (.ok ⟨vaddr, false, next⟩, { s with nextAddr := next })

/-- `mm_alloc_mmap_region`, when nothing else has found a range. -/
def chooseLegacy (low : Bool) : Except ℕ Place × Space :=
  if low ∨ s.regionLimit < s.nextAddr + len ∨ s.nextAddr = 0 then (.error 12, s)
  else chooseAt s s.nextAddr (s.nextAddr + len)

/-- A range that is held by a placeholder. -/
def chooseGap (limit : ℕ) (low : Bool) : Except ℕ Place × Space :=
  match if vaddr = 0 then none else vmaAdd E s (mapping vaddr len 0 0x22 0 (-1) 0) with
  | some t =>
    if vaddr + len ≤ limit then (.ok ⟨vaddr, true, s.nextAddr⟩, t)
    else chooseLegacy (t.release E true vaddr len) len low
  | none => chooseLegacy s len low

def chooseAnywhere : Except ℕ Place × Space :=
  let anonymous : Bool := flags &&& 0x20 ≠ 0
  let low : Bool := ¬s.compat32 ∧ flags &&& 0x40 ≠ 0
  let limit := if low then 0x80000000 else s.regionLimit
  let base := if low then 0x40000000 else max s.regionBase s.nextAddr
  let floor := if anonymous ∨ low then 0x10000 else base
  let ceiling := if low then limit else
    if anonymous ∧ ¬s.compat32 then userMax + 1 else s.regionLimit
  let hint := if c.addr % 4096 = 0 ∧ floor ≤ c.addr ∧ c.addr < ceiling ∧ len ≤ ceiling - c.addr ∧
    ∀ v ∈ s.vmas, ¬v.Meets c.addr (c.addr + len) then c.addr else 0
  let first := if hint = 0 then E.findGap s.vmas len base limit else hint
  let below := E.findGap s.vmas len (max 0x100000000 (pageAlignUp s.brkCurrent)) s.regionBase
  let vaddr :=
    if first = 0 ∧ ¬low ∧ ¬s.compat32 ∧ anonymous then
      if s.regionBase ≤ below ∨ s.regionBase - below < len then 0 else below
    else first
  if anonymous ∧ vaddr ≠ 0 ∧ vaddr ≤ userMax ∧ len - 1 ≤ userMax - vaddr then
    -- the cursor moves only if the mapping succeeds
    (.ok ⟨vaddr, false, if s.regionBase ≤ vaddr ∧ vaddr + len ≤ s.regionLimit then
      max s.nextAddr (vaddr + len) else s.nextAddr⟩, s)
  else if ¬anonymous ∧ (low ∨ vaddr = 0) then
    chooseGap E s (if low then vaddr else E.findGap s.vmas len s.regionBase s.regionLimit)
      len limit low
  else if vaddr ≠ 0 ∧ vaddr + len ≤ limit then chooseAt s vaddr (max s.nextAddr (vaddr + len))
  else chooseLegacy s len low

/-- The first part of a call, up to the range of the mapping. -/
def choose : Except ℕ Place × Space :=
  if c.prot &&& 0x3000007 ≠ c.prot ∨ c.flags % 16 ∉ [1, 2, 3] ∨ c.length = 0 then (.error 22, s)
  else if c.len = 0 ∨ userMax < c.len - 1 ∨
      s.compat32 ∧ (0xC0000000 ≤ c.addr ∨ 0xC0000000 - c.addr < c.len) then (.error 12, s)
  else if c.userFlags &&& 0x10 ≠ 0 ∧ c.userFlags &&& 0x100000 ≠ 0 then (.error 22, s)
  else if c.Fixed then chooseFixed E s c c.userFlags c.len
  else chooseAnywhere E s c c.userFlags c.len

def sysMmap : Except ℕ ℕ × Space :=
  match choose E s c with
  | (.error e, t) => (.error e, t)
  | (.ok p, t) =>
    if c.userFlags &&& 0x20 ≠ 0 then mapAnonymous E t c c.userFlags p.vaddr c.len p.next
    else mapFile E t c c.userFlags p.vaddr c.len p.reserved

/-- The translations after the handler has run, if the call gets to it. -/
def handled (entry : ℕ → Option ℕ) : ℕ → Option ℕ :=
  match E.node (c.fd % 2 ^ 32) with
  | none => entry
  | some n =>
    if Denied c flags n then entry
    else match handler flags n with
      | some f => (f entry vaddr len).2
      | none => entry

/-- No range is chosen; or no region is where a fixed mapping goes, and the translations are the
same after those of a fixed mapping's range are gone and the handler of a file has run. -/
def Harmless : Prop :=
  match (choose E s c).1 with
  | .error _ => True
  | .ok p =>
    (c.Fixed → ∀ v ∈ s.vmas, ¬v.Meets c.addr (c.addr + c.len)) ∧
      let entry a := if c.Fixed ∧ c.addr ≤ a ∧ a < c.addr + c.len then none else s.entry a
      (if c.userFlags &&& 0x20 ≠ 0 then entry
        else handled E c c.userFlags p.vaddr c.len entry) = s.entry

end

variable {E : Env} {s s' t : Space} {c : Args} {flags vaddr len e next : ℕ} {reserved : Bool}

/-- The regions and the translations are those of the other space. -/
def Same (s s' : Space) : Prop := s'.vmas = s.vmas ∧ s'.entry = s.entry

@[simp] theorem release_entry : (s.release E reserved vaddr len).entry = s.entry := by
  cases reserved <;> rfl

theorem install_same {r : Region} (h : install E s r next = (.error e, s')) : Same s s' := by
  unfold install at h
  split at h
  · cases h
    exact ⟨rfl, rfl⟩
  · cases h

theorem release_vmas {entry : ℕ → Option ℕ} :
    ({ s with entry := entry }.release E reserved vaddr len).vmas =
      (s.release E reserved vaddr len).vmas := by
  cases reserved <;> rfl

theorem mapFile_left (h : mapFile E s c flags vaddr len reserved = (.error e, s')) :
    s'.vmas = (s.release E reserved vaddr len).vmas ∧
      s'.entry = handled E c flags vaddr len s.entry := by
  unfold mapFile at h
  rw [handled]
  split at h
  · cases h
    exact ⟨rfl, release_entry⟩
  next n _ =>
  dsimp only at h
  by_cases hd : Denied c flags n
  · rw [if_pos hd] at h ⊢
    cases h
    exact ⟨rfl, release_entry⟩
  rw [if_neg hd] at h ⊢
  split at h
  · split at h
    · cases h
      exact ⟨release_vmas, release_entry⟩
    · exact (install_same h).imp (·.trans release_vmas) (·.trans release_entry)
  · split at h
    · cases h
      exact ⟨rfl, release_entry⟩
    · exact (install_same h).imp_right (·.trans release_entry)

/-- A removal changes nothing exactly when no region is in the range. -/
theorem remove_vmas_iff :
    (s.remove E vaddr len).vmas = s.vmas ↔ ∀ v ∈ s.vmas, ¬v.Meets vaddr (vaddr + len) := by
  rw [Space.remove]
  constructor
  · intro h v hv
    rw [← h] at hv
    obtain ⟨w, -, hw⟩ := mem_flatMap.mp (mem_filter.mp hv).1
    exact not_meets_of_mem_cut hw
  · intro h
    rw [flatMap_cut_of_not_meets h]
    exact kept_eq (all_eq_true.mpr fun w hw => by simp [hw])

/-- A placeholder goes without a trace. -/
theorem release_vmaAdd {r : Region} (hr : r.start < r.stop) (h : vmaAdd E s r = some t) :
    kept E.alloc t.vmas (t.vmas.flatMap (cut r.start r.stop)) = s.vmas ∧ t.entry = s.entry := by
  unfold vmaAdd at h
  split at h
  · next hfree =>
    cases h
    rw [flatMap_cons, flatMap_cut_of_not_meets hfree.1, cut, if_pos ⟨hr, hr⟩]
    refine ⟨?_, rfl⟩
    simp only [lt_irrefl, if_false, append_nil, nil_append]
    exact kept_eq (all_eq_true.mpr fun w hw => by simp [hw])
  · cases h

/-- Nothing has changed if no range is chosen; otherwise the space is `u`, once the placeholder is
gone. -/
def Held (E : Env) (s u : Space) (flags len : ℕ) : Except ℕ Place × Space → Prop
  | (.error _, t) => Same s t
  | (.ok p, t) =>
    Same u (t.release E p.reserved p.vaddr len) ∧ (flags &&& 0x20 ≠ 0 → p.reserved = false)

theorem chooseAt_held : Held E t s flags len (chooseAt s vaddr next) := ⟨⟨rfl, rfl⟩, fun _ => rfl⟩

theorem chooseLegacy_held {low : Bool} (hs : Same t s) :
    Held E t t flags len (chooseLegacy s len low) := by
  unfold chooseLegacy
  split
  · exact hs
  · exact ⟨hs, fun _ => rfl⟩

theorem chooseGap_held {limit : ℕ} {low : Bool} (hlen : 0 < len) (hf : flags &&& 0x20 = 0) :
    Held E s s flags len (chooseGap E s vaddr len limit low) := by
  unfold chooseGap
  split
  · next t ht =>
    obtain ⟨-, ht⟩ := Option.ite_none_left_eq_some.mp ht
    have hsame : Same s (t.release E true vaddr len) := release_vmaAdd (by simp [mapping, hlen]) ht
    split
    · exact ⟨hsame, fun h => absurd hf h⟩
    · exact chooseLegacy_held hsame
  · exact chooseLegacy_held ⟨rfl, rfl⟩

theorem chooseAnywhere_held (hlen : 0 < len) :
    Held E s s flags len (chooseAnywhere E s c flags len) := by
  unfold chooseAnywhere
  extract_lets anonymous
  split
  · exact ⟨⟨rfl, rfl⟩, fun _ => rfl⟩
  split
  · next h => exact chooseGap_held hlen (by simpa [anonymous] using h.1)
  split
  · exact chooseAt_held
  · exact chooseLegacy_held ⟨rfl, rfl⟩

theorem chooseFixed_held :
    Held E s (s.clear E c.addr len) flags len (chooseFixed E s c flags len) := by
  unfold chooseFixed
  extract_lets
  split_ifs
  · exact ⟨rfl, rfl⟩
  · exact ⟨rfl, rfl⟩
  · exact ⟨rfl, rfl⟩
  · exact ⟨⟨rfl, rfl⟩, fun _ => rfl⟩

theorem choose_held : Held E s (if c.Fixed then s.clear E c.addr c.len else s) c.userFlags c.len
    (choose E s c) := by
  unfold choose
  generalize hu : (if c.Fixed then s.clear E c.addr c.len else s) = u
  split_ifs with h1 h2 h3 hf
  · exact ⟨rfl, rfl⟩
  · exact ⟨rfl, rfl⟩
  · exact ⟨rfl, rfl⟩
  · rw [← hu, if_pos hf]
    exact chooseFixed_held
  · rw [← hu, if_neg hf]
    exact chooseAnywhere_held (by omega)

/-- **When a call of `mmap` that fails changes nothing**: exactly when it is refused before a range
is chosen, or nothing is mapped where a fixed mapping goes and the handler of the file leaves the
translations as they were. -/
theorem failed_mmap_keeps_iff (h : sysMmap E s c = (.error e, s')) :
    s'.vmas = s.vmas ∧ s'.entry = s.entry ↔ Harmless E s c := by
  have hheld := choose_held (E := E) (s := s) (c := c)
  rw [sysMmap] at h
  rw [Harmless]
  match hch : choose E s c with
  | (.error _, t) =>
    rw [hch] at h hheld
    cases h
    exact iff_of_true hheld trivial
  | (.ok p, t) =>
    rw [hch] at h hheld
    obtain ⟨⟨hvmas, hentry⟩, hreserved⟩ := hheld
    rw [release_entry] at hentry
    -- what the call leaves, as the first part has left it
    have hleft : s'.vmas = (t.release E p.reserved p.vaddr c.len).vmas ∧ s'.entry =
        if c.userFlags &&& 0x20 ≠ 0 then t.entry
          else handled E c c.userFlags p.vaddr c.len t.entry := by
      dsimp only at h
      split_ifs at h ⊢ with hanon
      · rw [hreserved hanon]
        exact install_same h
      · exact mapFile_left h
    rw [hleft.1, hleft.2, hvmas, hentry]
    by_cases hf : c.Fixed
    · simp only [hf, if_true, true_and, true_imp_iff]
      exact and_congr remove_vmas_iff Iff.rfl
    · simp [hf]

/-- A page is mapped at 0x10000, and no file is open. -/
def onePage : Space := ⟨[mapping 0x10000 0x1000 3 0x22 0 (-1) 0], fun _ => none, 0, 0, false⟩

def noFiles : Env := ⟨fun _ => none, fun _ => true, fun _ _ _ _ => 0x7F0000000000⟩

/-- The descriptor is bad; a mapping that must not replace another would do so. -/
theorem failed_mmap_keeps_badf : (sysMmap noFiles onePage ⟨0, 0x1000, 1, 1, 3, 0⟩).1 = .error 9 ∧
    (sysMmap noFiles onePage ⟨0, 0x1000, 1, 1, 3, 0⟩).2.vmas = onePage.vmas ∧
    (sysMmap noFiles onePage ⟨0x10000, 0x1000, 1, 0x100001, 3, 0⟩).2.vmas = onePage.vmas := by
  have hbadf : Harmless noFiles onePage ⟨0, 0x1000, 1, 1, 3, 0⟩ :=
    show _ ∧ _ from ⟨fun h => absurd h (by decide), rfl⟩
  have hexist : Harmless noFiles onePage ⟨0x10000, 0x1000, 1, 0x100001, 3, 0⟩ := trivial
  exact ⟨by decide, ((failed_mmap_keeps_iff rfl).mpr hbadf).1,
    ((failed_mmap_keeps_iff rfl).mpr hexist).1⟩

/-- **The mapping that a fixed one should replace is gone**, though the descriptor is bad. -/
theorem badf_unmaps : (sysMmap noFiles onePage ⟨0x10000, 0x1000, 1, 0x11, 3, 0⟩).1 = .error 9 ∧
    (sysMmap noFiles onePage ⟨0x10000, 0x1000, 1, 0x11, 3, 0⟩).2.vmas = [] := by decide

end AvoryOS.Vmm.Mmap
