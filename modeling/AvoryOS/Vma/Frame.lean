import AvoryOS.Vma.Invariant

/-!
# What the operations keep

A removal leaves no address of its range mapped, and a change of protection keeps the same
addresses mapped, with the new protection inside of the range.  Every other address keeps its
data, and so does everything but the protection inside: that is what both operations are for.

They do not keep it.  A region that is cut is made again from its parts by `vma_add`, which sets
no NUMA policy, and nothing puts the policy back; `vma_list_clone` does put it back after the same
call.  The data is kept if and only if the regions that are made again have no policy.
-/

namespace AvoryOS.Vma

open Vma.Tree Option

/-- The bytes of the file window from an address on, up to the end of the region.  The fault
handler reads a size of `0` as that of the region, unless `MAP_ELF_LOAD` is set, which is left
out here. -/
def Region.remaining (v : Region) (addr : ℕ) : ℕ :=
  min (v.fileSize - (addr - v.start)) (v.stop - addr)

def Region.offsetAt (v : Region) (addr : ℕ) : ℕ := (v.offset + (addr - v.start)) % 2 ^ 64

def Region.NoPolicy (v : Region) : Prop :=
  v.numaPolicy = 0 ∧ v.numaNodemask = 0 ∧ v.numaPreferredNode = 0

/-- The region `w` says of the address what `v` says, except that the protection is `prot`.  The
window is as long as the region goes. -/
structure Same (prot addr : ℕ) (v w : Region) : Prop where
  prot : w.prot = prot
  flags : w.flags = v.flags
  fd : w.fd = v.fd
  fileNode : w.fileNode = v.fileNode
  offset : w.offsetAt addr = v.offsetAt addr
  window : w.remaining addr = min (v.remaining addr) (w.stop - addr)
  linuxVma : w.linuxVma = v.linuxVma
  numaPolicy : w.numaPolicy = v.numaPolicy
  numaNodemask : w.numaNodemask = v.numaNodemask
  numaPreferredNode : w.numaPreferredNode = v.numaPreferredNode

/-- The region that `vma_find` returns. -/
def VmaList.at (m : Memory) (l : VmaList) (addr : ℕ) : Option Region :=
  (vmaFind m l addr).1.map Prod.snd

/-- An address keeps its data, or is not mapped as before; `f` is its new protection. -/
def Kept (m : Memory) (l l' : VmaList) (f : ℕ → ℕ) (addr : ℕ) : Prop :=
  match l.at m addr with
  | none => l'.at m addr = none
  | some v => ∃ w, l'.at m addr = some w ∧ Same (f v.prot) addr v w

/-- What `vma_remove` is for. -/
def RemoveLaw (m : Memory) (l : VmaList) (start stop : ℕ) : Prop :=
  ∃ l' b, vmaRemove m l start stop = some (l', b) ∧
    (∀ addr, start ≤ addr → addr < stop → l'.at m addr = none) ∧
    ∀ addr, ¬(start ≤ addr ∧ addr < stop) → Kept m l l' id addr

/-- What `vma_mprotect` is for. -/
def ProtectLaw (m : Memory) (l : VmaList) (start stop prot : ℕ) : Prop :=
  ∃ l', vmaMprotect m l start stop prot = some l' ∧
    (∀ addr, start ≤ addr → addr < stop → Kept m l l' (fun _ => prot) addr) ∧
    ∀ addr, ¬(start ≤ addr ∧ addr < stop) → Kept m l l' id addr

variable {m : Memory} {l l' : VmaList} {v w : Region} {start stop addr prot : ℕ}

/-! ## The region of an address -/

theorem Inv.at_eq_some_iff (hi : Inv l) : l.at m addr = some v ↔ v ∈ l.regions ∧ v.Has addr := by
  obtain ⟨l', h, -⟩ := hi.vmaFind_eq m addr
  rw [VmaList.at, h]
  refine ⟨fun h => ?_, fun ⟨hv, hh⟩ => ?_⟩
  · obtain ⟨e, he, rfl⟩ := map_eq_some_iff.mp h
    exact ⟨List.mem_map_of_mem (List.mem_of_find?_eq_some he), by simpa using List.find?_some he⟩
  obtain ⟨e, he, rfl⟩ := List.mem_map.mp hv
  rw [find?_of_has hi.apart he hh]
  rfl

theorem Inv.at_eq_none_iff (hi : Inv l) : l.at m addr = none ↔ ∀ v ∈ l.regions, ¬v.Has addr := by
  rw [eq_none_iff_forall_ne_some]
  refine ⟨fun h v hv hh => h v (hi.at_eq_some_iff.mpr ⟨hv, hh⟩), fun h v hv => ?_⟩
  obtain ⟨hv, hh⟩ := hi.at_eq_some_iff.mp hv
  exact h v hv hh

/-- If each region becomes parts of itself, then the region of an address in the end is a part of
its region before. -/
theorem Inv.kept_iff (hi : Inv l) (hi' : Inv l') {g : Region → List Region} {f : ℕ → ℕ}
    (hregs : l'.regions = l.regions.flatMap g)
    (hsub : ∀ v ∈ l.regions, ∀ w ∈ g v, ∀ addr, w.Has addr → v.Has addr)
    (hcover : ∀ v ∈ l.regions, v.Has addr → ∃ w ∈ g v, w.Has addr) :
    Kept m l l' f addr ↔ ∀ v ∈ l.regions, v.Has addr → ∀ w ∈ g v, w.Has addr →
      Same (f v.prot) addr v w := by
  have hmem : ∀ w, w ∈ l'.regions ↔ ∃ v ∈ l.regions, w ∈ g v := by
    intro w
    rw [hregs, List.mem_flatMap]
  rw [Kept]
  cases hv : l.at m addr with
  | none =>
    have hno := hi.at_eq_none_iff.mp hv
    refine ⟨fun _ v hv hh => absurd hh (hno v hv), fun _ => hi'.at_eq_none_iff.mpr ?_⟩
    intro w hw hh
    obtain ⟨v, hv, hw⟩ := (hmem w).mp hw
    exact hno v hv (hsub v hv w hw addr hh)
  | some v =>
    obtain ⟨hmv, hh⟩ := hi.at_eq_some_iff.mp hv
    refine ⟨?_, fun h => ?_⟩
    · rintro ⟨w, hw, hsame⟩ v' hmv' hh' w' hw' hhw
      have hv' : l.at m addr = some v' := hi.at_eq_some_iff.mpr ⟨hmv', hh'⟩
      obtain rfl := some.inj (hv.symm.trans hv')
      have hat : l'.at m addr = some w' := hi'.at_eq_some_iff.mpr ⟨(hmem w').mpr ⟨v, hmv, hw'⟩, hhw⟩
      obtain rfl := some.inj (hw.symm.trans hat)
      exact hsame
    · obtain ⟨w, hw, hhw⟩ := hcover v hmv hh
      exact ⟨w, hi'.at_eq_some_iff.mpr ⟨(hmem w).mpr ⟨v, hmv, hw⟩, hhw⟩, h v hmv hh w hw hhw⟩

/-! ## Parts of a region -/

/-- The part of `v` from `a` to `b`, made again without a policy. -/
structure Part (prot a b : ℕ) (v w : Region) : Prop where
  start : w.start = a
  stop : w.stop = b
  prot : w.prot = prot
  flags : w.flags = v.flags
  fd : w.fd = v.fd
  fileNode : w.fileNode = v.fileNode
  offset : w.offset % 2 ^ 64 = (v.offset + (a - v.start)) % 2 ^ 64
  fileSize : w.fileSize = min (v.fileSize - (a - v.start)) (b - a)
  linuxVma : w.linuxVma = v.linuxVma
  noPolicy : w.NoPolicy

theorem window_eq (size rel len : ℕ) : window size rel len = min (size - rel) len := by
  rw [window]
  split_ifs <;> omega

theorem part_before (v : Region) (start : ℕ) : Part v.prot v.start start v (v.before start) :=
  ⟨rfl, rfl, rfl, rfl, rfl, rfl, by rw [Nat.sub_self]; rfl, by rw [Nat.sub_self]; rfl, rfl,
    rfl, rfl, rfl⟩

theorem part_after (v : Region) (stop : ℕ) : Part v.prot stop v.stop v (v.after stop) :=
  ⟨rfl, rfl, rfl, rfl, rfl, rfl, Nat.mod_mod _ _, window_eq .., rfl, rfl, rfl, rfl⟩

theorem part_within (v : Region) (start stop prot : ℕ) :
    Part prot start stop v (v.within start stop prot) :=
  ⟨rfl, rfl, rfl, rfl, rfl, rfl, Nat.mod_mod _ _, window_eq .., rfl, rfl, rfl, rfl⟩

/-- **A part says the same as the region if and only if the region has no policy.** -/
theorem Part.same_iff {a b : ℕ} (hp : Part prot a b v w) (h1 : v.start ≤ a) (h2 : a ≤ addr)
    (h3 : b ≤ v.stop) : Same prot addr v w ↔ v.NoPolicy := by
  obtain ⟨hn1, hn2, hn3⟩ := hp.noPolicy
  refine ⟨fun h => ⟨?_, ?_, ?_⟩, fun h => ⟨hp.prot, hp.flags, hp.fd, hp.fileNode, ?_, ?_,
    hp.linuxVma, ?_, ?_, ?_⟩⟩
  · rw [← h.numaPolicy, hn1]
  · rw [← h.numaNodemask, hn2]
  · rw [← h.numaPreferredNode, hn3]
  · rw [Region.offsetAt, Region.offsetAt, hp.start, Nat.add_mod, hp.offset]
    omega
  · rw [Region.remaining, Region.remaining, hp.start, hp.stop, hp.fileSize]
    omega
  · rw [hn1, h.1]
  · rw [hn2, h.2.1]
  · rw [hn3, h.2.2]

theorem same_self (v : Region) (addr : ℕ) : Same v.prot addr v v :=
  ⟨rfl, rfl, rfl, rfl, rfl, by rw [Region.remaining]; omega, rfl, rfl, rfl, rfl⟩

/-- What a removal leaves of a region: a part on either side, or the region. -/
theorem mem_cut : w ∈ cut start stop v ↔ v.Meets start stop ∧ v.start < start ∧ w = v.before start ∨
    v.Meets start stop ∧ stop < v.stop ∧ w = v.after stop ∨ ¬v.Meets start stop ∧ w = v := by
  rw [cut]
  split_ifs <;> simp_all

theorem mem_protect : w ∈ protect start stop prot v ↔
    v.Meets start stop ∧ v.start < start ∧ w = v.before start ∨
    v.Meets start stop ∧ w = v.within (max v.start start) (min v.stop stop) prot ∨
    v.Meets start stop ∧ stop < v.stop ∧ w = v.after stop ∨ ¬v.Meets start stop ∧ w = v := by
  rw [protect]
  split_ifs <;> simp [*]

/-! ## The laws -/

/-- A removal keeps the data of other addresses if the regions it cuts have no policy. -/
theorem removeLaw_iff (hi : Inv l) (hm : m.Plenty) (hlt : start < stop) :
    RemoveLaw m l start stop ↔ ∀ v ∈ l.regions, v.Meets start stop →
      (v.start < start ∨ stop < v.stop) → v.NoPolicy := by
  obtain ⟨l', b, hrem, hi', hregs, -⟩ := vmaRemove_spec hi hm hlt
  have hsub : ∀ v ∈ l.regions, ∀ w ∈ cut start stop v, ∀ addr, w.Has addr → v.Has addr := by
    intro v _ w hw addr hh
    rcases mem_cut.mp hw with ⟨hmeet, -, rfl⟩ | ⟨hmeet, -, rfl⟩ | ⟨-, rfl⟩
    · exact ⟨hh.1, Nat.lt_trans hh.2 hmeet.1⟩
    · exact ⟨Nat.le_trans (Nat.le_of_lt hmeet.2) hh.1, hh.2⟩
    · exact hh
  have hcover : ∀ addr, ¬(start ≤ addr ∧ addr < stop) → ∀ v ∈ l.regions, v.Has addr →
      ∃ w ∈ cut start stop v, w.Has addr := by
    intro addr hout v _ hh
    by_cases hmeet : v.Meets start stop
    · rcases Nat.lt_or_ge addr start with h | h
      · exact ⟨_, mem_cut.mpr (.inl ⟨hmeet, Nat.lt_of_le_of_lt hh.1 h, rfl⟩), hh.1, h⟩
      · have hle : stop ≤ addr := Nat.not_lt.mp fun h' => hout ⟨h, h'⟩
        exact ⟨_, mem_cut.mpr (.inr (.inl ⟨hmeet, Nat.lt_of_le_of_lt hle hh.2, rfl⟩)), hle, hh.2⟩
    · exact ⟨v, mem_cut.mpr (.inr (.inr ⟨hmeet, rfl⟩)), hh⟩
  have hkept := fun addr hout =>
    hi.kept_iff (m := m) (f := id) hi' hregs hsub (hcover addr hout)
  refine ⟨?_, fun h => ⟨l', b, hrem, fun addr h1 h2 => ?_, fun addr hout => ?_⟩⟩
  · rintro ⟨l'', b', hrem', -, hout⟩ v hv hmeet hcut
    rw [hrem] at hrem'
    obtain ⟨rfl, -⟩ := Prod.mk.inj (some.inj hrem')
    rcases hcut with h | h
    · have hno : ¬(start ≤ v.start ∧ v.start < stop) := by omega
      have hsame := (hkept _ hno).mp (hout _ hno) v hv
        ⟨le_rfl, (hi.regions_apart.2 v hv)⟩ _ (mem_cut.mpr (.inl ⟨hmeet, h, rfl⟩))
        ⟨le_rfl, h⟩
      exact ((part_before v start).same_iff le_rfl le_rfl (Nat.le_of_lt hmeet.1)).mp hsame
    · have hno : ¬(start ≤ stop ∧ stop < stop) := by omega
      have hsame := (hkept _ hno).mp (hout _ hno) v hv ⟨Nat.le_of_lt hmeet.2, h⟩ _
        (mem_cut.mpr (.inr (.inl ⟨hmeet, h, rfl⟩))) ⟨le_rfl, h⟩
      exact ((part_after v stop).same_iff (Nat.le_of_lt hmeet.2) le_rfl le_rfl).mp hsame
  · refine hi'.at_eq_none_iff.mpr fun w hw hh => ?_
    rw [hregs] at hw
    obtain ⟨v, -, hw⟩ := List.mem_flatMap.mp hw
    exact not_meets_of_mem_cut hw ⟨Nat.lt_of_le_of_lt h1 hh.2, Nat.lt_of_le_of_lt hh.1 h2⟩
  refine (hkept addr hout).mpr fun v hv hh w hw hhw => ?_
  rcases mem_cut.mp hw with ⟨hmeet, hb, rfl⟩ | ⟨hmeet, ha, rfl⟩ | ⟨-, rfl⟩
  · exact ((part_before v start).same_iff le_rfl hhw.1 (Nat.le_of_lt hmeet.1)).mpr
      (h v hv hmeet (.inl hb))
  · exact ((part_after v stop).same_iff (Nat.le_of_lt hmeet.2) hhw.1 le_rfl).mpr
      (h v hv hmeet (.inr ha))
  · exact same_self w addr

/-- A change of protection keeps the data if the regions that it meets have no policy. -/
theorem protectLaw_iff (hi : Inv l) (hm : m.Plenty) (hlt : start < stop) (prot : ℕ) :
    ProtectLaw m l start stop prot ↔ ∀ v ∈ l.regions, v.Meets start stop → v.NoPolicy := by
  obtain ⟨l', hrem, hi', hregs⟩ := vmaMprotect_spec hi hm hlt prot
  have hsub : ∀ v ∈ l.regions, ∀ w ∈ protect start stop prot v, ∀ addr,
      w.Has addr → v.Has addr := by
    intro v _ w hw addr hh
    rcases mem_protect.mp hw with ⟨hmeet, -, rfl⟩ | ⟨hmeet, rfl⟩ | ⟨hmeet, -, rfl⟩ | ⟨-, rfl⟩
    · exact ⟨hh.1, Nat.lt_trans hh.2 hmeet.1⟩
    · exact ⟨Nat.le_trans (Nat.le_max_left _ _) hh.1, Nat.lt_of_lt_of_le hh.2 (Nat.min_le_left _ _)⟩
    · exact ⟨Nat.le_trans (Nat.le_of_lt hmeet.2) hh.1, hh.2⟩
    · exact hh
  have hcover : ∀ addr, ∀ v ∈ l.regions, v.Has addr →
      ∃ w ∈ protect start stop prot v, w.Has addr := by
    intro addr v _ hh
    by_cases hmeet : v.Meets start stop
    · rcases Nat.lt_or_ge addr start with h | h
      · exact ⟨_, mem_protect.mpr (.inl ⟨hmeet, Nat.lt_of_le_of_lt hh.1 h, rfl⟩), hh.1, h⟩
      rcases Nat.lt_or_ge addr stop with h' | h'
      · exact ⟨_, mem_protect.mpr (.inr (.inl ⟨hmeet, rfl⟩)), Nat.max_le.mpr ⟨hh.1, h⟩,
          Nat.lt_min.mpr ⟨hh.2, h'⟩⟩
      · exact ⟨_, mem_protect.mpr (.inr (.inr (.inl ⟨hmeet, Nat.lt_of_le_of_lt h' hh.2, rfl⟩))),
          h', hh.2⟩
    · exact ⟨v, mem_protect.mpr (.inr (.inr (.inr ⟨hmeet, rfl⟩))), hh⟩
  have hkept := fun f addr => hi.kept_iff (m := m) (f := f) hi' hregs hsub (hcover addr)
  refine ⟨?_, fun h => ⟨l', hrem, fun addr h1 h2 => ?_, fun addr hout => ?_⟩⟩
  · rintro ⟨l'', hrem', hin, -⟩ v hv hmeet
    rw [hrem] at hrem'
    cases hrem'
    have hpos := hi.regions_apart.2 v hv
    have hlow : max v.start start < min v.stop stop :=
      Nat.max_lt.mpr ⟨Nat.lt_min.mpr ⟨hpos, hmeet.2⟩, Nat.lt_min.mpr ⟨hmeet.1, hlt⟩⟩
    have hsame := (hkept _ _).mp (hin (max v.start start) (Nat.le_max_right _ _)
      (Nat.lt_of_lt_of_le hlow (Nat.min_le_right _ _))) v hv
      ⟨Nat.le_max_left _ _, Nat.lt_of_lt_of_le hlow (Nat.min_le_left _ _)⟩ _
      (mem_protect.mpr (.inr (.inl ⟨hmeet, rfl⟩))) ⟨le_rfl, hlow⟩
    exact ((part_within ..).same_iff (Nat.le_max_left _ _) le_rfl (Nat.min_le_left _ _)).mp hsame
  · refine (hkept _ addr).mpr fun v hv hh w hw hhw => ?_
    rcases mem_protect.mp hw with ⟨-, -, rfl⟩ | ⟨hmeet, rfl⟩ | ⟨-, -, rfl⟩ | ⟨hmeet, -⟩
    · exact absurd hhw.2 (Nat.not_lt.mpr h1)
    · exact ((part_within ..).same_iff (Nat.le_max_left _ _) hhw.1 (Nat.min_le_left _ _)).mpr
        (h v hv hmeet)
    · exact absurd hhw.1 (Nat.not_le.mpr h2)
    · exact absurd ⟨Nat.lt_of_le_of_lt h1 hh.2, Nat.lt_of_le_of_lt hh.1 h2⟩ hmeet
  · refine (hkept _ addr).mpr fun v hv hh w hw hhw => ?_
    rcases mem_protect.mp hw with ⟨hmeet, -, rfl⟩ | ⟨-, rfl⟩ | ⟨hmeet, -, rfl⟩ | ⟨-, rfl⟩
    · exact ((part_before v start).same_iff le_rfl hhw.1 (Nat.le_of_lt hmeet.1)).mpr (h v hv hmeet)
    · exact absurd ⟨Nat.le_trans (Nat.le_max_right _ _) hhw.1,
        Nat.lt_of_lt_of_le hhw.2 (Nat.min_le_right _ _)⟩ hout
    · exact ((part_after v stop).same_iff (Nat.le_of_lt hmeet.2) hhw.1 le_rfl).mpr (h v hv hmeet)
    · exact same_self w addr

/-- **The operations keep what they should if and only if the regions they make again have no NUMA
policy**: for a removal the regions that reach out of the range, for a change of protection all
that meet it. -/
theorem vma_frame (hi : Inv l) (hm : m.Plenty) (hlt : start < stop) (prot : ℕ) :
    (RemoveLaw m l start stop ↔ ∀ v ∈ l.regions, v.Meets start stop →
      (v.start < start ∨ stop < v.stop) → v.NoPolicy) ∧
    (ProtectLaw m l start stop prot ↔ ∀ v ∈ l.regions, v.Meets start stop → v.NoPolicy) :=
  ⟨removeLaw_iff hi hm hlt, protectLaw_iff hi hm hlt prot⟩

/-- Three pages with a policy, as `mbind` sets it on the region of an address. -/
def boundPages : VmaList :=
  let l := (vmaAdd .endless vmaListInit 0x1000 0x4000 3 0x22 (-1) 0 0 0).2
  { l with root := l.root.modify 1 fun v => { v with numaPolicy := 1, numaNodemask := 1 } }

theorem inv_boundPages : Inv boundPages := by
  have hi := inv_vmaListInit.add .endless (by decide : 0x1000 < 0x4000) 3 0x22 (-1) 0 0 0
  have hmem : ((1, ⟨0x1000, 0x4000, 3, 0x22, 0, 0, -1, 0, 0, 0, 0, 0⟩) : ℕ × Region) ∈
      (vmaAdd .endless vmaListInit 0x1000 0x4000 3 0x22 (-1) 0 0 0).2.root.entries := by
    decide +kernel
  have hhas : (⟨0x1000, 0x4000, 3, 0x22, 0, 0, -1, 0, 0, 0, 0, 0⟩ : Region).Has 0x1000 := by decide
  exact (hi.modify hmem hhas (f := fun v => { v with numaPolicy := 1, numaNodemask := 1 })
    fun v => ⟨rfl, rfl⟩).2

/-- A removal inside of a region of files without a policy, and a change of protection. -/
theorem vma_frame_plain : ∃ l m, Inv l ∧ m.Plenty ∧ RemoveLaw m l 0x2000 0x3000 ∧
    ProtectLaw m l 0x2000 0x3000 1 := by
  have hi := inv_vmaListInit.add .endless (by decide : 0x1000 < 0x4000) 3 2 5 0x7000 9 0x2800
  have hno : ∀ v ∈ (vmaAdd .endless vmaListInit 0x1000 0x4000 3 2 5 0x7000 9 0x2800).2.regions,
      v.NoPolicy := by
    intro v hv
    rw [List.mem_singleton.mp hv]
    exact ⟨rfl, rfl, rfl⟩
  obtain ⟨hrem, hprot⟩ := vma_frame hi Memory.endless_plenty (by decide : 0x2000 < 0x3000) 1
  exact ⟨_, .endless, hi, Memory.endless_plenty, hrem.mpr fun v hv _ _ => hno v hv,
    hprot.mpr fun v hv _ => hno v hv⟩

/-- **The policy is lost**: the middle page is removed, or made read-only, and the first page has
no policy any more. -/
theorem vma_frame_fails : Inv boundPages ∧
    (boundPages.at .endless 0x1000).map Region.numaPolicy = some 1 ∧
    ((vmaRemove .endless boundPages 0x2000 0x3000).bind fun r =>
      (r.1.at .endless 0x1000).map Region.numaPolicy) = some 0 ∧
    ((vmaMprotect .endless boundPages 0x2000 0x3000 1).bind fun r =>
      (r.at .endless 0x1000).map Region.numaPolicy) = some 0 ∧
    ¬RemoveLaw .endless boundPages 0x2000 0x3000 ∧
    ¬ProtectLaw .endless boundPages 0x2000 0x3000 1 := by
  have hmem : (⟨0x1000, 0x4000, 3, 0x22, 0, 0, -1, 0, 0, 1, 1, 0⟩ : Region) ∈
      boundPages.regions := by decide +kernel
  refine ⟨inv_boundPages, by decide +kernel, by decide +kernel, by decide +kernel, fun h => ?_,
    fun h => ?_⟩
  · have := (removeLaw_iff inv_boundPages Memory.endless_plenty (by decide)).mp h _ hmem
      (by decide) (by decide)
    exact absurd this.1 (by decide)
  · have := (protectLaw_iff inv_boundPages Memory.endless_plenty (by decide) 1).mp h _ hmem
      (by decide)
    exact absurd this.1 (by decide)

end AvoryOS.Vma
