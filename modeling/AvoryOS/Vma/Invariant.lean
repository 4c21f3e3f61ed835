import AvoryOS.Vma.Avl
import Mathlib.Algebra.Order.BigOperators.Group.List

/-!
# The invariant of a list of regions

The operations keep the tree balanced and ordered, the regions apart, the count exact, and every
cached node in the tree, so that a lookup finds the region of an address whatever is cached.

The loop of `vma_remove` deletes nodes after it has put a piece back, and with it into the cache.
That piece is before the range, and a deletion keeps the nodes before the deleted one.
-/

namespace AvoryOS.Vma

open Vma.Tree List Memory VmaList

def VmaList.regions (l : VmaList) : List Region := l.root.entries.map Prod.snd

structure Inv (l : VmaList) : Prop where
  avl : l.root.Avl
  apart : Apart l.root.entries
  nodup : (l.root.entries.map Prod.fst).Nodup
  count : l.count = l.root.entries.length
  cached : ∀ p ∈ l.cache.nodes, p ∈ l.root.entries.map Prod.fst

variable {m : Memory} {l : VmaList} {p q : ℕ} {v w : Region} {es L R : List (ℕ × Region)}

theorem Mru.mem_push {c : Mru} (h : q ∈ (c.push p).nodes) : q = p ∨ q ∈ c.nodes := by
  simp only [Mru.nodes, Mru.push, mem_filterMap, mem_cons, id, exists_eq_right,
    Option.some.injEq] at h ⊢
  tauto

theorem Inv.regions_apart (hi : Inv l) : l.regions.Pairwise (fun a b => a.stop ≤ b.start) ∧
    ∀ w ∈ l.regions, w.start < w.stop := by
  refine ⟨pairwise_map.mpr hi.apart.1, fun w hw => ?_⟩
  obtain ⟨e, he, rfl⟩ := mem_map.mp hw
  exact hi.apart.2 e he

theorem Inv.around (hi : Inv l) (he : l.root.entries = L ++ (p, v) :: R) :
    (∀ w ∈ L.map Prod.snd, w.stop ≤ v.start) ∧ v.start < v.stop ∧
      ∀ w ∈ R.map Prod.snd, v.stop ≤ w.start ∧ w.start < w.stop := by
  obtain ⟨hp, hs⟩ := hi.regions_apart
  simp only [regions, he, map_append, map_cons, pairwise_append, pairwise_cons,
    forall_mem_append, forall_mem_cons] at hp hs
  exact ⟨fun w hw => (hp.2.2 w hw).1, hs.2.1, fun w hw => ⟨hp.2.1.1 w hw, hs.2.2 w hw⟩⟩

theorem not_of_find?_eq_none {P : Region → Prop} [DecidablePred P]
    (h : (l.root.entries.find? fun e => P e.2) = none) : ∀ w ∈ l.regions, ¬P w := by
  intro w hw hp
  obtain ⟨e, he, rfl⟩ := mem_map.mp hw
  exact absurd (decide_eq_true hp) (find?_eq_none.mp h e he)

theorem inv_vmaListInit : Inv vmaListInit :=
  ⟨trivial, ⟨Pairwise.nil, fun _ h => (by cases h)⟩, nodup_nil, rfl, fun _ h => (by cases h)⟩

/-! ## Lookups -/

variable {e : ℕ × Region}

theorem find?_of_has (ha : Apart es) (he : e ∈ es) {addr : ℕ}
    (hh : e.2.Has addr) : (es.find? fun e => e.2.Has addr) = some e := by
  induction es with
  | nil => cases he
  | cons d es ih =>
    obtain ⟨hp, hs⟩ := ha
    obtain ⟨hd, hp⟩ := pairwise_cons.mp hp
    rcases mem_cons.mp he with rfl | he
    · rw [find?_cons, decide_eq_true hh]
    have hstop : d.2.stop ≤ e.2.start := hd e he
    have hnot : ¬d.2.Has addr := fun h => absurd h.2 (Nat.not_lt.mpr (Nat.le_trans hstop hh.1))
    rw [find?_cons, decide_eq_false hnot]
    exact ih ⟨hp, fun e he => hs e (mem_cons_of_mem _ he)⟩ he

variable {t : Tree}

theorem Memory.load_eq (hn : (t.entries.map Prod.fst).Nodup)
    (he : (p, v) ∈ t.entries) : m.load t p = v := by
  have hfind : (t.entries.find? fun e => e.1 = p) = some (p, v) := by
    generalize t.entries = es at hn he
    induction es with
    | nil => cases he
    | cons d es ih =>
      rw [map_cons, nodup_cons] at hn
      rcases mem_cons.mp he with rfl | he
      · rw [find?_cons, decide_eq_true rfl]
      have hne : ¬d.1 = p := fun e => hn.1 (e ▸ mem_map_of_mem he)
      rw [find?_cons, decide_eq_false hne]
      exact ih hn.2 he
  rw [load, hfind]
  rfl

theorem Inv.push (hi : Inv l) (hp : p ∈ l.root.entries.map Prod.fst) :
    Inv { l with cache := l.cache.push p } :=
  ⟨hi.avl, hi.apart, hi.nodup, hi.count, fun q hq => by
    rcases Mru.mem_push hq with rfl | hq
    · exact hp
    · exact hi.cached q hq⟩

/-- **A lookup finds the region of the address**, and at most puts its node into the cache. -/
theorem Inv.vmaFind_eq (hi : Inv l) (m : Memory) (addr : ℕ) :
    ∃ l', vmaFind m l addr = (l.root.entries.find? fun e => e.2.Has addr, l') ∧ Inv l' ∧
      l'.root = l.root ∧ ∀ q ∈ l'.cache.nodes,
        q ∈ l.cache.nodes ∨ ∃ e ∈ l.root.entries, e.2.Has addr ∧ q = e.1 := by
  rw [vmaFind]
  cases hc : l.cache.nodes.find? fun p => (m.load l.root p).Has addr with
  | some p =>
    obtain ⟨⟨p', v⟩, he, rfl⟩ := mem_map.mp (hi.cached p (mem_of_find?_eq_some hc))
    have hhas : (m.load l.root p').Has addr := by simpa using find?_some hc
    rw [load_eq hi.nodup he] at hhas
    dsimp only
    rw [load_eq hi.nodup he, find?_of_has hi.apart he hhas]
    exact ⟨l, rfl, hi, rfl, fun q hq => .inl hq⟩
  | none =>
    rw [find_eq hi.apart]
    cases hf : l.root.entries.find? fun e => e.2.Has addr with
    | none => exact ⟨l, rfl, hi, rfl, fun q hq => .inl hq⟩
    | some e =>
      have he := mem_of_find?_eq_some hf
      have hhas : e.2.Has addr := by simpa using find?_some hf
      exact ⟨_, rfl, hi.push (mem_map_of_mem he), rfl, fun q hq =>
        (Mru.mem_push hq).symm.imp_right fun h => ⟨e, he, hhas, h⟩⟩

theorem Inv.find (hi : Inv l) (m : Memory) (addr : ℕ) : Inv (vmaFind m l addr).2 := by
  obtain ⟨l', h, hi', -⟩ := hi.vmaFind_eq m addr
  rw [h]
  exact hi'

/-! ## Adding a region -/

variable {start stop : ℕ}

theorem Tree.Apart.split (ha : Apart es)
    (hno : ∀ e ∈ es, ¬e.2.Meets start stop) : ∃ L R, es = L ++ R ∧
      (∀ e ∈ L, e.2.stop ≤ start) ∧ ∀ e ∈ R, stop ≤ e.2.start := by
  induction es with
  | nil => exact ⟨[], [], rfl, fun _ h => (by cases h), fun _ h => (by cases h)⟩
  | cons d es ih =>
    obtain ⟨hp, hs⟩ := ha
    obtain ⟨hd, hp⟩ := pairwise_cons.mp hp
    by_cases hb : d.2.stop ≤ start
    · obtain ⟨L, R, rfl, hL, hR⟩ := ih ⟨hp, fun e he => hs e (mem_cons_of_mem _ he)⟩
        fun e he => hno e (mem_cons_of_mem _ he)
      exact ⟨d :: L, R, rfl, forall_mem_cons.mpr ⟨hb, hL⟩, hR⟩
    have hstop : stop ≤ d.2.start :=
      Nat.not_lt.mp fun h => hno d mem_cons_self ⟨Nat.not_le.mp hb, h⟩
    have hds := hs d mem_cons_self
    refine ⟨[], d :: es, rfl, fun _ h => (by cases h), forall_mem_cons.mpr ⟨hstop, ?_⟩⟩
    exact fun e he => Nat.le_trans hstop (Nat.le_trans (Nat.le_of_lt hds) (hd e he))

theorem Tree.Apart.insert (ha : Apart (L ++ R)) (hv : v.start < v.stop)
    (hL : ∀ e ∈ L, e.2.stop ≤ v.start) (hR : ∀ e ∈ R, v.stop ≤ e.2.start) :
    Apart (L ++ (p, v) :: R) := by
  obtain ⟨hp, hs⟩ := ha
  obtain ⟨hpL, hpR, hLR⟩ := pairwise_append.mp hp
  refine ⟨pairwise_append.mpr ⟨hpL, pairwise_cons.mpr ⟨hR, hpR⟩, fun a ha b hb => ?_⟩,
    fun e he => ?_⟩
  · rcases mem_cons.mp hb with rfl | hb
    · exact hL a ha
    · exact hLR a ha b hb
  simp only [mem_append, mem_cons] at he hs
  rcases he with he | rfl | he
  · exact hs e (.inl he)
  · exact hv
  · exact hs e (.inr he)

section

variable (hi : Inv l)
include hi

theorem Inv.insert (hp : p ∉ l.root.entries.map Prod.fst)
    (he : l.root.entries = L ++ R) (hv : v.start < v.stop) (hL : ∀ e ∈ L, e.2.stop ≤ v.start)
    (hR : ∀ e ∈ R, v.stop ≤ e.2.start) : (l.root.insertNode p v).entries = L ++ (p, v) :: R ∧
      Inv ⟨l.root.insertNode p v, l.count + 1, l.cache.push p⟩ := by
  have hmem : ∀ e ∈ l.root.entries, e.2.start < e.2.stop := hi.apart.2
  rw [he] at hmem
  have hlow : ∀ e ∈ L, e.2.start < v.start := fun e h =>
    Nat.lt_of_lt_of_le (hmem e (mem_append_left _ h)) (hL e h)
  have hhigh : ∀ e ∈ R, v.start < e.2.start := fun e h => Nat.lt_of_lt_of_le hv (hR e h)
  have hent := entries_insertNode (p := p) he hlow hhigh
  refine ⟨hent, (insertNode_avl hi.avl fun e h => ?_).1, ?_, ?_, ?_, fun q hq => ?_⟩
  · rw [he, mem_append] at h
    rcases h with h | h
    · exact Nat.ne_of_lt (hlow e h)
    · exact Nat.ne_of_gt (hhigh e h)
  · rw [hent]
    exact Apart.insert (he ▸ hi.apart) hv hL hR
  · have hperm : ((L ++ (p, v) :: R).map Prod.fst).Perm (p :: (L ++ R).map Prod.fst) :=
      perm_middle.map Prod.fst
    rw [hent]
    refine hperm.nodup_iff.mpr (nodup_cons.mpr ⟨he ▸ hp, he ▸ hi.nodup⟩)
  · rw [hent]
    have := hi.count
    rw [he] at this
    simp only [length_append, length_cons] at this ⊢
    omega
  rw [hent]
  rcases Mru.mem_push hq with rfl | hq
  · simp
  have := hi.cached q hq
  rw [he] at this
  simp only [map_append, mem_append] at this ⊢
  tauto

theorem vmaAdd_cases (m : Memory) (start stop prot flags : ℕ) (fd : ℤ)
    (offset fileNode fileSize : ℕ) :
    vmaAdd m l start stop prot flags fd offset fileNode fileSize = (-1, l) ∨
      ∃ p, p ∉ l.root.entries.map Prod.fst ∧ (∀ e ∈ l.root.entries, ¬e.2.Meets start stop) ∧
        vmaAdd m l start stop prot flags fd offset fileNode fileSize =
          (0, ⟨l.root.insertNode p
            ⟨start, stop, prot, flags, offset, fileSize, fd, fileNode, 0, 0, 0, 0⟩,
            l.count + 1, l.cache.push p⟩) := by
  rw [vmaAdd, vmaFindOverlap, findOverlap_eq hi.avl]
  split
  · exact .inl rfl
  rename_i hnone
  split
  · exact .inl rfl
  rename_i p hp
  refine .inr ⟨p, m.fresh _ _ hp, fun e he hm => ?_, rfl⟩
  exact absurd (decide_eq_true hm) (find?_eq_none.mp hnone e he)

theorem Inv.add (m : Memory) (hlt : start < stop) (prot flags : ℕ)
    (fd : ℤ) (offset fileNode fileSize : ℕ) :
    Inv (vmaAdd m l start stop prot flags fd offset fileNode fileSize).2 := by
  rcases vmaAdd_cases hi m start stop prot flags fd offset fileNode fileSize with
    h | ⟨p, hp, hno, h⟩
  · rw [h]
    exact hi
  rw [h]
  obtain ⟨L, R, he, hL, hR⟩ := hi.apart.split hno
  exact (hi.insert hp he hlt hL hR).2

/-- **A region is added where there is none.** -/
theorem Inv.vmaAdd_eq (hm : m.Plenty) (hlt : start < stop)
    (he : l.root.entries = L ++ R) (hL : ∀ e ∈ L, e.2.stop ≤ start)
    (hR : ∀ e ∈ R, stop ≤ e.2.start) (prot flags : ℕ) (fd : ℤ) (offset fileNode fileSize : ℕ) :
    ∃ p, (vmaAdd m l start stop prot flags fd offset fileNode fileSize).1 = 0 ∧
      (vmaAdd m l start stop prot flags fd offset fileNode fileSize).2.root.entries =
        L ++ (p, ⟨start, stop, prot, flags, offset, fileSize, fd, fileNode, 0, 0, 0, 0⟩) :: R ∧
      (vmaAdd m l start stop prot flags fd offset fileNode fileSize).2.cache = l.cache.push p := by
  have hnone : (l.root.entries.find? fun e => e.2.Meets start stop) = none := by
    rw [find?_eq_none, he]
    intro e hmem hmeet
    obtain ⟨h1, h2⟩ := of_decide_eq_true hmeet
    rcases mem_append.mp hmem with h | h
    · exact absurd (hL e h) (Nat.not_le.mpr h1)
    · exact absurd (hR e h) (Nat.not_le.mpr h2)
  obtain ⟨p, hp⟩ := Option.isSome_iff_exists.mp (hm l.root)
  refine ⟨p, ?_⟩
  rw [vmaAdd, vmaFindOverlap, findOverlap_eq hi.avl, hnone]
  rw [hp]
  exact ⟨rfl, (hi.insert (m.fresh _ _ hp) he hlt hL hR).1, rfl⟩

/-! ## Changing the data of a node -/

theorem Inv.modify (he : e ∈ l.root.entries) {addr : ℕ} (hh : e.2.Has addr)
    {f : Region → Region} (hf : ∀ v, (f v).start = v.start ∧ (f v).stop = v.stop) :
    (l.root.modify e.1 f).entries =
      (l.root.entries.map fun d => if d.2.Has addr then (d.1, f d.2) else d) ∧
      Inv { l with root := l.root.modify e.1 f } := by
  have hent : (l.root.modify e.1 f).entries =
      (l.root.entries.map fun d => if d.2.Has addr then (d.1, f d.2) else d) := by
    rw [entries_modify]
    refine map_congr_left fun d hd => ?_
    by_cases hde : d.1 = e.1
    · obtain rfl := inj_on_of_nodup_map hi.nodup hd he hde
      rw [if_pos rfl, if_pos hh]
    rw [if_neg hde, if_neg]
    intro hd'
    have := (find?_of_has hi.apart hd hd').symm.trans (find?_of_has hi.apart he hh)
    exact hde (congrArg Prod.fst (Option.some.inj this))
  have hfst : (l.root.modify e.1 f).entries.map Prod.fst = l.root.entries.map Prod.fst := by
    rw [hent, map_map]
    refine map_congr_left fun d _ => ?_
    dsimp only [Function.comp]
    split_ifs <;> rfl
  have hpos : ∀ d : ℕ × Region, ((if d.2.Has addr then (d.1, f d.2) else d).2.start = d.2.start) ∧
      (if d.2.Has addr then (d.1, f d.2) else d).2.stop = d.2.stop := by
    intro d
    split_ifs
    · exact hf d.2
    · exact ⟨rfl, rfl⟩
  refine ⟨hent, (modify_avl (fun v => (hf v).2) hi.avl).1, ?_, hfst ▸ hi.nodup, ?_, ?_⟩
  · rw [hent]
    refine ⟨pairwise_map.mpr (hi.apart.1.imp fun {a b} h => ?_), fun d hd => ?_⟩
    · rw [(hpos a).2, (hpos b).1]
      exact h
    obtain ⟨d, hmem, rfl⟩ := mem_map.mp hd
    rw [(hpos d).1, (hpos d).2]
    exact hi.apart.2 d hmem
  · rw [hent, length_map]
    exact hi.count
  · intro q hq
    rw [hfst]
    exact hi.cached q hq

/-- `vma_attach_linux`: the region of the address gets the wrapper. -/
theorem Inv.attach (m : Memory) (start linuxVma : ℕ) : Inv (vmaAttachLinux m l start linuxVma) ∧
      (vmaAttachLinux m l start linuxVma).root.entries = l.root.entries.map (fun d =>
        if d.2.Has start ∧ linuxVma ≠ 0 then (d.1, { d.2 with linuxVma := linuxVma }) else d) ∧
      ∀ q ∈ (vmaAttachLinux m l start linuxVma).cache.nodes,
        q ∈ l.cache.nodes ∨ ∃ e ∈ l.root.entries, e.2.Has start ∧ q = e.1 := by
  rw [vmaAttachLinux]
  by_cases h0 : linuxVma = 0
  · rw [if_pos h0]
    exact ⟨hi, by simp [h0], fun q hq => .inl hq⟩
  rw [if_neg h0]
  obtain ⟨l', hres, hfi, hroot, hcache⟩ := hi.vmaFind_eq m start
  rw [hres]
  cases hf : l.root.entries.find? fun e => e.2.Has start with
  | none =>
    refine ⟨hfi, ?_, hcache⟩
    rw [hroot]
    symm
    refine (map_congr_left fun d hd => if_neg fun h => ?_).trans (map_id _)
    exact absurd (decide_eq_true h.1) (find?_eq_none.mp hf d hd)
  | some e =>
    obtain ⟨p, v⟩ := e
    have he := mem_of_find?_eq_some hf
    have hh : v.Has start := by simpa using find?_some hf
    dsimp only
    split_ifs with hsame
    swap
    · obtain ⟨hent, hinv⟩ := hfi.modify (hroot ▸ he) hh
        (f := fun v => { v with linuxVma := linuxVma }) fun v => ⟨rfl, rfl⟩
      refine ⟨hinv, ?_, hcache⟩
      rw [hent, hroot]
      simp [h0]
    refine ⟨hfi, ?_, hcache⟩
    rw [hroot]
    symm
    refine (map_congr_left fun d hd => ?_).trans (map_id _)
    split_ifs with h
    · have := (find?_of_has hi.apart hd h.1).symm.trans hf
      cases this
      rw [← hsame]
      rfl
    · rfl

theorem Inv.add_attach (hm : m.Plenty) (hlt : w.start < w.stop) (he : l.root.entries = L ++ R)
    (hL : ∀ e ∈ L, e.2.stop ≤ w.start) (hR : ∀ e ∈ R, w.stop ≤ e.2.start) :
    let l' := vmaAttachLinux m (vmaAdd m l w.start w.stop w.prot w.flags w.fd w.offset w.fileNode
      w.fileSize).2 w.start w.linuxVma
    Inv l' ∧ ∃ p, l'.root.entries = L ++ (p, { w with
        numaPolicy := 0, numaNodemask := 0, numaPreferredNode := 0 }) :: R ∧
      ∀ q ∈ l'.cache.nodes, q = p ∨ q ∈ l.cache.nodes := by
  obtain ⟨p, -, hent, hcache⟩ := hi.vmaAdd_eq hm hlt he hL hR w.prot w.flags w.fd w.offset
    w.fileNode w.fileSize
  obtain ⟨hinv', hent', hcache'⟩ := (hi.add m hlt w.prot w.flags w.fd w.offset w.fileNode
    w.fileSize).attach m w.start w.linuxVma
  have hother : ∀ d ∈ L ++ R, ¬d.2.Has w.start := by
    intro d hd hh
    rcases mem_append.mp hd with h | h
    · exact absurd (hL d h) (Nat.not_le.mpr hh.2)
    · exact absurd (hR d h) (Nat.not_le.mpr (Nat.lt_of_le_of_lt hh.1 hlt))
  have hsame : ∀ K : List (ℕ × Region), (∀ d ∈ K, ¬d.2.Has w.start) → K.map (fun d =>
      if d.2.Has w.start ∧ w.linuxVma ≠ 0 then (d.1, { d.2 with linuxVma := w.linuxVma }) else d) =
        K :=
    fun K hK => (map_congr_left fun d hd => if_neg fun h => hK d hd h.1).trans (map_id _)
  refine ⟨hinv', p, ?_, fun q hq => ?_⟩
  · rw [hent', hent, map_append, map_cons, hsame L fun d hd => hother d (mem_append_left _ hd),
      hsame R fun d hd => hother d (mem_append_right _ hd)]
    by_cases h0 : w.linuxVma = 0
    · rw [if_neg (by simp [h0]), h0]
    · rw [if_pos ⟨⟨le_rfl, hlt⟩, h0⟩]
  rcases hcache' q hq with hq | ⟨e, hmem, hh, rfl⟩
  · rw [hcache] at hq
    exact Mru.mem_push hq
  rw [hent] at hmem
  rcases mem_append.mp hmem with h | h
  · exact absurd hh (hother e (mem_append_left _ h))
  rcases mem_cons.mp h with rfl | h
  · exact .inl rfl
  · exact absurd hh (hother e (mem_append_right _ h))

end

/-! ## Removing a range -/

/-- What is left of a region before an address; a NUMA policy is not kept. -/
@[grind] def Region.before (v : Region) (start : ℕ) : Region :=
  ⟨v.start, start, v.prot, v.flags, v.offset, min v.fileSize (start - v.start), v.fd, v.fileNode,
    v.linuxVma, 0, 0, 0⟩

/-- What is left of a region from an address on. -/
def Region.after (v : Region) (stop : ℕ) : Region :=
  ⟨stop, v.stop, v.prot, v.flags, (v.offset + (stop - v.start)) % 2 ^ 64,
    window v.fileSize (stop - v.start) (v.stop - stop), v.fd, v.fileNode, v.linuxVma, 0, 0, 0⟩

def cut (start stop : ℕ) (v : Region) : List Region :=
  if v.Meets start stop then
    (if v.start < start then [v.before start] else []) ++
      if stop < v.stop then [v.after stop] else []
  else [v]

theorem Inv.delete (hi : Inv l) (he : l.root.entries = L ++ (p, v) :: R)
    (hc : ∀ q ∈ l.cache.nodes, q ∈ L.map Prod.fst) :
    Inv { l with root := (l.root.deleteNode v.start).1, count := l.count - 1 } ∧
      ∃ R', (l.root.deleteNode v.start).1.entries = L ++ R' ∧ R'.map Prod.snd = R.map Prod.snd := by
  obtain ⟨-, hcase⟩ := entries_deleteNode hi.apart.ordered he
  have hsub : ∃ R', (l.root.deleteNode v.start).1.entries = L ++ R' ∧
      R'.map Prod.snd = R.map Prod.snd ∧ (R'.map Prod.fst).Sublist (p :: R.map Prod.fst) := by
    rcases hcase with h | ⟨q, w, R', rfl, -, h⟩
    · exact ⟨R, h, rfl, sublist_cons_self _ _⟩
    · exact ⟨(p, w) :: R', h, rfl, Sublist.cons_cons p (sublist_cons_self _ _)⟩
  obtain ⟨R', hent, hsnd, hfst⟩ := hsub
  have hlen : R'.length = R.length := by simpa using congrArg length hsnd
  refine ⟨⟨(deleteNode_avl hi.avl _).1, ?_, ?_, ?_, fun q hq => ?_⟩, R', hent, hsnd⟩
  · -- the regions are a part of those before
    have hap := hi.apart
    rw [he] at hap
    have hregs : ((L ++ (p, v) :: R).map Prod.snd).Pairwise fun a b => a.stop ≤ b.start :=
      pairwise_map.mpr hap.1
    have hmap : ((L ++ R').map Prod.snd).Sublist ((L ++ (p, v) :: R).map Prod.snd) := by
      rw [map_append, hsnd, ← map_append]
      exact ((sublist_cons_self _ _).append_left L).map Prod.snd
    rw [hent]
    refine ⟨?_, fun d hd => ?_⟩
    · exact pairwise_map.mp (hregs.sublist hmap)
    obtain ⟨d', hd', h⟩ := mem_map.mp (hmap.subset (mem_map_of_mem hd))
    rw [← h]
    exact hap.2 d' hd'
  · have hnd := hi.nodup
    rw [he, map_append] at hnd
    rw [hent, map_append]
    exact hnd.sublist (hfst.append_left _)
  · have := hi.count
    rw [he] at this
    rw [hent]
    simp only [length_append, length_cons] at this ⊢
    omega
  · rw [hent, map_append]
    exact mem_append_left _ (hc q hq)

/-- **What is left of a region is put back into its place.**  Only the piece after the range makes
a cached region that does not end before the range. -/
theorem Inv.putBack (hi : Inv l) (hm : m.Plenty) (hlt : start < stop)
    (he : l.root.entries = L ++ R) (hmeet : v.Meets start stop)
    (hL : ∀ e ∈ L, e.2.stop ≤ v.start) (hR : ∀ e ∈ R, v.stop ≤ e.2.start) :
    Inv (putBack m start stop v l) ∧
      ∃ P, (putBack m start stop v l).root.entries = L ++ P ++ R ∧
        P.map Prod.snd = cut start stop v ∧
        (v.stop ≤ stop → ∀ q ∈ (putBack m start stop v l).cache.nodes,
          q ∈ l.cache.nodes ∨ ∃ w, (q, w) ∈ P ∧ w.stop ≤ start) := by
  rw [Vma.putBack, cut, if_pos hmeet]
  by_cases hbef : v.start < start
  swap
  · rw [if_neg fun h => hbef h.1, if_neg hbef]
    by_cases haft : stop < v.stop
    · obtain ⟨hi2, p2, hent2, -⟩ := hi.add_attach (w := v.after stop) hm haft he
        (fun e h => Nat.le_trans (hL e h) (Nat.le_of_lt hmeet.2)) hR
      rw [if_pos ⟨Nat.not_lt.mp hbef, hmeet.2, haft⟩, if_pos haft]
      refine ⟨hi2, [(p2, v.after stop)], ?_, rfl, fun h => ?_⟩
      · exact hent2.trans (append_cons L _ R)
      · omega
    · rw [if_neg fun h => haft h.2.2, if_neg fun h => hbef h.2.1, if_neg haft]
      exact ⟨hi, [], by rw [he, append_nil], rfl, fun _ q hq => .inl hq⟩
  obtain ⟨hi1, p1, hent1, hc1⟩ := hi.add_attach (w := v.before start) hm hbef he hL
    fun e h => Nat.le_trans (Nat.le_of_lt hmeet.1) (hR e h)
  rw [if_pos hbef]
  by_cases haft : stop < v.stop
  swap
  · rw [if_neg fun h => haft h.2, if_neg fun h => haft h.2.2,
      if_pos ⟨Nat.not_lt.mp haft, hbef, hmeet.1⟩, if_neg haft]
    refine ⟨hi1, [(p1, v.before start)], ?_, rfl, fun _ q hq => ?_⟩
    · exact hent1.trans (append_cons L _ R)
    rcases hc1 q hq with rfl | hq
    · exact .inr ⟨_, mem_singleton_self _, le_rfl⟩
    · exact .inl hq
  have hL1 : ∀ e ∈ L ++ [(p1, v.before start)], e.2.stop ≤ stop := by
    intro e h
    rcases mem_append.mp h with h | h
    · exact Nat.le_trans (hL e h) (Nat.le_of_lt (Nat.lt_trans hbef hlt))
    · obtain rfl := mem_singleton.mp h
      exact Nat.le_of_lt hlt
  obtain ⟨hi2, p2, hent2, -⟩ := hi1.add_attach (w := v.after stop) hm haft
    (hent1.trans (append_cons L _ R)) hL1 hR
  rw [if_pos ⟨hbef, haft⟩, if_pos haft]
  refine ⟨hi2, [(p1, v.before start), (p2, v.after stop)], ?_, rfl, fun h => ?_⟩
  · exact hent2.trans (by rw [append_assoc, append_assoc]; rfl)
  · omega

/-- The cached regions end before the address. -/
def Behind (start : ℕ) (l : VmaList) : Prop :=
  ∀ q ∈ l.cache.nodes, ∃ w, (q, w) ∈ l.root.entries ∧ w.stop ≤ start

theorem stop_le_of_mem_before (h : w ∈ if v.start < start then [v.before start] else []) :
    w.stop ≤ start := by
  split_ifs at h <;> simp_all [Region.before]

theorem le_start_of_mem_after (h : w ∈ if stop < v.stop then [v.after stop] else []) :
    stop ≤ w.start := by
  split_ifs at h <;> simp_all [Region.after]

theorem not_meets_of_mem_cut (h : w ∈ cut start stop v) : ¬w.Meets start stop := by
  rw [cut] at h
  by_cases hm : v.Meets start stop
  · rw [if_pos hm] at h
    rcases mem_append.mp h with h | h
    · exact fun hw => absurd hw.1 (Nat.not_lt.mpr (stop_le_of_mem_before h))
    · exact fun hw => absurd hw.2 (Nat.not_lt.mpr (le_start_of_mem_after h))
  · rw [if_neg hm, mem_singleton] at h
    exact h ▸ hm

/-- **A pass of the loop of `vma_remove`** replaces the first region that meets the range by what
is left of it. -/
theorem removeStep_spec (hi : Inv l) (hm : m.Plenty) (hlt : start < stop)
    (hb : Behind start l ∨ ∀ w ∈ l.regions, ¬w.Meets start stop) (b : Bool) :
    (removeStep m start stop (l, b) = .inr (l, b) ∧ ∀ w ∈ l.regions, ¬w.Meets start stop) ∨
    ∃ l' A v B, removeStep m start stop (l, b) = .inl (l', true) ∧ l.regions = A ++ v :: B ∧
      v.Meets start stop ∧ Inv l' ∧ l'.regions = A ++ cut start stop v ++ B ∧
      (Behind start l' ∨ ∀ w ∈ l'.regions, ¬w.Meets start stop) := by
  rw [removeStep, vmaFindOverlap, findOverlap_eq hi.avl]
  cases hf : l.root.entries.find? fun e => e.2.Meets start stop with
  | none =>
    exact .inl ⟨rfl, not_of_find?_eq_none hf⟩
  | some e =>
    obtain ⟨p, v⟩ := e
    obtain ⟨hmeet, L, R, he, hno⟩ := find?_eq_some_iff_append.mp hf
    have hmeet : v.Meets start stop := of_decide_eq_true hmeet
    obtain ⟨hLv, -, hvR⟩ := hi.around he
    have hb := hb.resolve_right fun h => h v (by simp [regions, he]) hmeet
    -- the cached nodes are before the region
    have hcL : ∀ q ∈ l.cache.nodes, ∃ w, (q, w) ∈ L ∧ w.stop ≤ start := by
      intro q hq
      obtain ⟨w, hw, hstop⟩ := hb q hq
      rw [he] at hw
      rcases mem_append.mp hw with h | h
      · exact ⟨w, h, hstop⟩
      rcases mem_cons.mp h with h | h
      · obtain rfl := congrArg Prod.snd h
        exact absurd hmeet.1 (Nat.not_lt.mpr hstop)
      · have := hvR w (mem_map_of_mem h)
        exact absurd hmeet.1 (by omega)
    obtain ⟨hdel, R', hent, hsnd⟩ := hi.delete he fun q hq =>
      (hcL q hq).elim fun w h => mem_map_of_mem h.1
    have hR' : ∀ e ∈ R', v.stop ≤ e.2.start := fun e h =>
      (hvR e.2 (hsnd ▸ mem_map_of_mem h)).1
    obtain ⟨hinv, P, hentP, hP, hcache⟩ := hdel.putBack hm hlt hent hmeet
      (fun e h => hLv e.2 (mem_map_of_mem h)) hR'
    have hregs : (putBack m start stop v { l with
        root := (l.root.deleteNode v.start).1, count := l.count - 1 }).regions =
        L.map Prod.snd ++ cut start stop v ++ R.map Prod.snd := by
      rw [regions, hentP, map_append, map_append, hP, hsnd]
    refine .inr ⟨_, L.map Prod.snd, v, R.map Prod.snd, rfl, ?_, hmeet, hinv, hregs, ?_⟩
    · rw [regions, he, map_append, map_cons]
    by_cases haft : v.stop ≤ stop
    · refine .inl fun q hq => ?_
      rw [hentP]
      rcases hcache haft q hq with hq | ⟨w, hw, hstop⟩
      · obtain ⟨w, hw, hstop⟩ := hcL q hq
        exact ⟨w, mem_append_left _ (mem_append_left _ hw), hstop⟩
      · exact ⟨w, mem_append_left _ (mem_append_right _ hw), hstop⟩
    refine .inr fun w hw => ?_
    rw [hregs, ← hsnd] at hw
    rcases mem_append.mp hw with h | h
    · rcases mem_append.mp h with h | h
      · obtain ⟨e, hmem, rfl⟩ := mem_map.mp h
        simpa using hno e hmem
      · exact not_meets_of_mem_cut h
    · obtain ⟨e, hmem, rfl⟩ := mem_map.mp h
      have hle := hR' e hmem
      exact fun hmw => absurd hmw.2 (by omega)

theorem flatMap_eq_self {α : Type*} {f : α → List α} {xs : List α} (h : ∀ x ∈ xs, f x = [x]) :
    xs.flatMap f = xs := by
  induction xs with
  | nil => rfl
  | cons x xs ih =>
    rw [forall_mem_cons] at h
    rw [flatMap_cons, ih h.2, h.1]
    rfl

variable {rs : List Region}

theorem flatMap_cut_of_not_meets
    (h : ∀ w ∈ rs, ¬w.Meets start stop) : rs.flatMap (cut start stop) = rs :=
  flatMap_eq_self fun w hw => if_neg (h w hw)

/-- **The regions after `vma_remove`**, which returns whether something was removed. -/
theorem vmaRemove_spec (hi : Inv l) (hm : m.Plenty) (hlt : start < stop) :
    ∃ l' b, vmaRemove m l start stop = some (l', b) ∧ Inv l' ∧
      l'.regions = l.regions.flatMap (cut start stop) ∧
      (b = true ↔ ∃ w ∈ l.regions, w.Meets start stop) := by
  -- the pieces that the range leaves in the end are the same from pass to pass
  let I : VmaList × Bool → Prop := fun s => Inv s.1 ∧
    s.1.regions.flatMap (cut start stop) = l.regions.flatMap (cut start stop) ∧
    (Behind start s.1 ∨ ∀ w ∈ s.1.regions, ¬w.Meets start stop) ∧
    (s.2 = true → ∃ w ∈ l.regions, w.Meets start stop) ∧ (s.2 = false → s.1.regions = l.regions)
  have hstep : ∀ s, I s → (∃ s', removeStep m start stop s = .inl s' ∧ I s' ∧
        s'.1.regions.countP (fun w => w.Meets start stop) <
          s.1.regions.countP fun w => w.Meets start stop) ∨
      ∃ r, removeStep m start stop s = .inr r ∧ Inv r.1 ∧
        r.1.regions = l.regions.flatMap (cut start stop) ∧
        (r.2 = true ↔ ∃ w ∈ l.regions, w.Meets start stop) := by
    rintro ⟨l1, b1⟩ ⟨hi₁, hflat, hb, htrue, hfalse⟩
    rcases removeStep_spec hi₁ hm hlt hb b1 with
      ⟨h, hno⟩ | ⟨l', A, v, B, h, hold, hmeet, hi', hnew, hb'⟩
    · refine .inr ⟨_, h, hi₁, by rw [← hflat, flatMap_cut_of_not_meets hno], htrue, ?_⟩
      rintro ⟨w, hw, hmeet⟩
      cases b1 with
      | true => rfl
      | false =>
        rw [← hfalse rfl] at hw
        exact absurd hmeet (hno w hw)
    have hcut : (cut start stop v).flatMap (cut start stop) = cut start stop v :=
      flatMap_cut_of_not_meets fun w => not_meets_of_mem_cut
    refine .inl ⟨_, h, ⟨hi', ?_, hb', fun _ => ?_, nofun⟩, ?_⟩
    · rw [← hflat, hold, hnew]
      simp [hcut]
    · cases b1 with
      | true => exact htrue rfl
      | false => exact ⟨v, by rw [← hfalse rfl, hold]; simp, hmeet⟩
    have hzero : (cut start stop v).countP (fun w => w.Meets start stop) = 0 := by
      rw [countP_eq_zero]
      intro w hw
      simpa using not_meets_of_mem_cut hw
    rw [hold, hnew]
    simp only [countP_append, countP_cons, hmeet, decide_true, if_true]
    omega
  have hstart : I ({ l with cache := .empty }, false) :=
    ⟨{ hi with cached := fun q hq => (by cases hq) }, rfl,
      .inl fun q hq => (by cases hq), fun h => (by cases h), fun _ => rfl⟩
  have hbound : l.regions.countP (fun w => w.Meets start stop) < l.root.entries.length + 1 := by
    refine Nat.lt_succ_of_le (countP_le_length.trans ?_)
    rw [regions, length_map]
  obtain ⟨⟨l', b⟩, hrun, hpost⟩ := Repeat.run_of_measure I _ _ hstep hstart hbound
  exact ⟨l', b, hrun, hpost⟩

/-! ## Changing the protection of a range -/

/-- The part of a region with the new protection. -/
@[grind] def Region.within (v : Region) (start stop prot : ℕ) : Region :=
  ⟨start, stop, prot, v.flags, (v.offset + (start - v.start)) % 2 ^ 64,
    window v.fileSize (start - v.start) (stop - start), v.fd, v.fileNode, v.linuxVma, 0, 0, 0⟩

/-- What a change of protection makes of a region. -/
def protect (start stop prot : ℕ) (v : Region) : List Region :=
  if v.Meets start stop then
    (if v.start < start then [v.before start] else []) ++
      v.within (max v.start start) (min v.stop stop) prot ::
      if stop < v.stop then [v.after stop] else []
  else [v]

theorem flatMap_protect_of_not_meets {prot : ℕ}
    (h : ∀ w ∈ rs, ¬w.Meets start stop) : rs.flatMap (protect start stop prot) = rs :=
  flatMap_eq_self fun w hw => if_neg (h w hw)

/-- Only the end of the range matters to a region that starts in it or after it. -/
theorem protect_congr {a b prot : ℕ} (ha : a ≤ w.start) (hb : b ≤ w.start)
    (hw : w.start < w.stop) : protect a stop prot w = protect b stop prot w := by
  have hmeets : w.Meets a stop ↔ w.Meets b stop :=
    ⟨fun h => ⟨Nat.lt_of_le_of_lt hb hw, h.2⟩, fun h => ⟨Nat.lt_of_le_of_lt ha hw, h.2⟩⟩
  by_cases h : w.Meets a stop
  · rw [protect, protect, if_pos h, if_pos (hmeets.mp h), if_neg (Nat.not_lt.mpr ha),
      if_neg (Nat.not_lt.mpr hb), Nat.max_eq_left ha, Nat.max_eq_left hb]
  · rw [protect, protect, if_neg h, if_neg fun h' => h (hmeets.mpr h')]

variable {curr : ℕ}

theorem Inv.reprotect (hi : Inv l) (hm : m.Plenty) (he : l.root.entries = L ++ (p, v) :: R)
    (hh : v.Has curr) (hlt : curr < stop) (hstop : stop ≤ v.stop) (prot : ℕ) :
    ∃ l1 b, vmaRemove m l curr stop = some (l1, b) ∧
      let l' := vmaAttachLinux m (vmaAdd m l1 curr stop prot v.flags v.fd
        ((v.offset + (curr - v.start)) % 2 ^ 64) v.fileNode
        (window v.fileSize (curr - v.start) (stop - curr))).2 curr v.linuxVma
      Inv l' ∧ l'.regions = (L.map Prod.snd ++ if v.start < curr then [v.before curr] else []) ++
        v.within curr stop prot :: ((if stop < v.stop then [v.after stop] else []) ++
          R.map Prod.snd) := by
  obtain ⟨l1, b, hrem, hi₁, hregs, -⟩ := vmaRemove_spec hi hm hlt
  refine ⟨l1, b, hrem, ?_⟩
  obtain ⟨hLv, -, hvR⟩ := hi.around he
  have hL : ∀ w ∈ L.map Prod.snd, w.stop ≤ curr := fun w hw => Nat.le_trans (hLv w hw) hh.1
  have hR : ∀ w ∈ R.map Prod.snd, stop ≤ w.start := fun w hw => Nat.le_trans hstop (hvR w hw).1
  -- the range is inside of the region, so the others stay
  have hcut : l1.regions = (L.map Prod.snd ++ if v.start < curr then [v.before curr] else []) ++
      ((if stop < v.stop then [v.after stop] else []) ++ R.map Prod.snd) := by
    have hmeet : v.Meets curr stop := ⟨hh.2, Nat.lt_of_le_of_lt hh.1 hlt⟩
    rw [hregs, regions, he, map_append, map_cons, flatMap_append, flatMap_cons,
      flatMap_cut_of_not_meets fun w hw h => absurd h.1 (Nat.not_lt.mpr (hL w hw)),
      flatMap_cut_of_not_meets fun w hw h => absurd h.2 (Nat.not_lt.mpr (hR w hw)), cut,
      if_pos hmeet]
    simp
  obtain ⟨E1, E2, hE, hE1, hE2⟩ := map_eq_append_iff.mp hcut
  have hlow : ∀ w ∈ E1.map Prod.snd, w.stop ≤ curr := by
    rw [hE1, forall_mem_append]
    exact ⟨hL, fun w => stop_le_of_mem_before⟩
  have hhigh : ∀ w ∈ E2.map Prod.snd, stop ≤ w.start := by
    rw [hE2, forall_mem_append]
    exact ⟨fun w => le_start_of_mem_after, hR⟩
  obtain ⟨hi', p', hent, -⟩ := hi₁.add_attach (w := v.within curr stop prot) hm hlt hE
    (fun e h => hlow e.2 (mem_map_of_mem h)) fun e h => hhigh e.2 (mem_map_of_mem h)
  refine ⟨hi', (congrArg (map Prod.snd) hent).trans ?_⟩
  rw [map_append, map_cons, hE1, hE2]
  rfl

/-- **A pass of the loop of `vma_mprotect`.**  A region that has `curr` starts there or before the
range. -/
theorem mprotectStep_spec (hi : Inv l) (hm : m.Plenty) (hlt : start < stop) (prot : ℕ)
    (hs : start ≤ curr) (hc : ∀ w ∈ l.regions, w.Has curr → max w.start start = curr) :
    (∃ l', mprotectStep m start stop prot (l, curr) = .inr (some l') ∧ Inv l' ∧
      l'.regions = l.regions.flatMap (protect curr stop prot)) ∨
    ∃ l' curr', mprotectStep m start stop prot (l, curr) = .inl (l', curr') ∧ Inv l' ∧
      curr < stop ∧ curr < curr' ∧ (∀ w ∈ l'.regions, w.Has curr' → max w.start start = curr') ∧
      l'.regions.flatMap (protect curr' stop prot) =
        l.regions.flatMap (protect curr stop prot) := by
  rw [mprotectStep]
  by_cases hend : curr < stop
  swap
  · rw [if_neg hend]
    refine .inl ⟨l, rfl, hi, ?_⟩
    rw [flatMap_protect_of_not_meets]
    intro w hw hmeet
    have := hc w hw ⟨by have := hmeet.2; omega, hmeet.1⟩
    have := hmeet.2
    omega
  rw [if_pos hend]
  obtain ⟨l', hres, hfi, hroot, -⟩ := hi.vmaFind_eq m curr
  rw [hres]
  have hregs : l'.regions = l.regions := congrArg (fun t => t.entries.map Prod.snd) hroot
  cases hfind : l.root.entries.find? fun e => e.2.Has curr with
  | none =>
    dsimp only
    rw [vmaFindOverlap, findOverlap_eq hfi.avl, hroot]
    have hhas : ∀ w ∈ l.regions, ¬w.Has curr := not_of_find?_eq_none hfind
    cases hf : l.root.entries.find? fun e => e.2.Meets curr stop with
    | none =>
      refine .inl ⟨l', rfl, hfi, ?_⟩
      rw [hregs, flatMap_protect_of_not_meets (not_of_find?_eq_none hf)]
    | some e =>
      -- a gap up to the first region that meets the rest of the range
      obtain ⟨p, v⟩ := e
      obtain ⟨hmeet, L, R, he, hno⟩ := find?_eq_some_iff_append.mp hf
      have hmeet : v.Meets curr stop := of_decide_eq_true hmeet
      have hmem : v ∈ l.regions := by
        rw [regions, he]
        simp
      have hcv : curr < v.start := Nat.not_le.mp fun h => hhas v hmem ⟨h, hmeet.1⟩
      obtain ⟨-, hv, hvR⟩ := hi.around he
      refine .inr ⟨l', v.start, rfl, hfi, hend, hcv, fun w hw hh => ?_, ?_⟩
      · rw [hregs] at hw
        obtain ⟨e, hew, rfl⟩ := mem_map.mp hw
        have hpv : (p, v) ∈ l.root.entries := by simp [he]
        have hvv : v.Has v.start := ⟨le_rfl, hv⟩
        have := (find?_of_has hi.apart hew hh).symm.trans (find?_of_has hi.apart hpv hvv)
        rw [Option.some.inj this]
        exact Nat.max_eq_left (by dsimp only; omega)
      rw [hregs]
      refine flatMap_congr fun w hw => ?_
      obtain ⟨e, hew, rfl⟩ := mem_map.mp hw
      have hpos := hi.apart.2 e hew
      rw [he] at hew
      rcases mem_append.mp hew with h | h
      · have hnot : ¬e.2.Meets curr stop := by simpa using hno e h
        have hnot' : ¬e.2.Meets v.start stop := fun hm =>
          hnot ⟨Nat.lt_trans hcv hm.1, hm.2⟩
        rw [protect, protect, if_neg hnot, if_neg hnot']
      rcases mem_cons.mp h with rfl | h
      · exact protect_congr le_rfl (Nat.le_of_lt hcv) hpos
      have := hvR e.2 (mem_map_of_mem h)
      exact protect_congr (by omega) (by omega) hpos
  | some e =>
    obtain ⟨p, v⟩ := e
    have hpv := mem_of_find?_eq_some hfind
    have hh : v.Has curr := by simpa using find?_some hfind
    have hmem : v ∈ l.regions := mem_map_of_mem hpv
    obtain ⟨L, R, he⟩ := append_of_mem hpv
    have hmin : curr < min v.stop stop := Nat.lt_min.mpr ⟨hh.2, hend⟩
    obtain ⟨l1, b, hrem, hi', hregs'⟩ := hfi.reprotect hm (hroot ▸ he) hh hmin
      (Nat.min_le_left _ _) prot
    dsimp only
    rw [hc v hmem hh, hrem]
    have haft : (if min v.stop stop < v.stop then [v.after (min v.stop stop)] else []) =
        if stop < v.stop then [v.after stop] else [] := by
      by_cases h : stop < v.stop
      · rw [Nat.min_eq_right (Nat.le_of_lt h)]
      · rw [Nat.min_eq_left (Nat.not_lt.mp h), if_neg (Nat.lt_irrefl _), if_neg h]
    rw [haft] at hregs'
    have hap := hi'.regions_apart.1
    rw [hregs'] at hap
    obtain ⟨-, hvB, hAv⟩ := pairwise_append.mp hap
    obtain ⟨hvB, -⟩ := pairwise_cons.mp hvB
    have hA : ∀ w ∈ L.map Prod.snd ++ (if v.start < curr then [v.before curr] else []),
        w.stop ≤ curr := fun w hw => hAv w hw _ mem_cons_self
    refine .inr ⟨_, _, rfl, hi', hend, hmin, fun w hw hhw => ?_, ?_⟩
    · rw [hregs'] at hw
      rcases mem_append.mp hw with h | h
      · exact absurd hhw.2 (Nat.not_lt.mpr (Nat.le_trans (hA w h) (Nat.le_of_lt hmin)))
      rcases mem_cons.mp h with rfl | h
      · exact absurd hhw.2 (Nat.lt_irrefl _)
      have hle : min v.stop stop ≤ w.start := hvB w h
      have := hhw.1
      omega
    -- what has been done stays, and the rest of the regions start after it
    have hdone : ∀ w ∈ (L.map Prod.snd ++ if v.start < curr then [v.before curr] else []) ++
        v.within curr (min v.stop stop) prot :: (if stop < v.stop then [v.after stop] else []),
        ¬w.Meets (min v.stop stop) stop := by
      intro w hw hmeet
      rcases mem_append.mp hw with h | h
      · exact absurd hmeet.1 (Nat.not_lt.mpr (Nat.le_trans (hA w h) (Nat.le_of_lt hmin)))
      rcases mem_cons.mp h with rfl | h
      · exact Nat.lt_irrefl _ hmeet.1
      exact absurd hmeet.2 (Nat.not_lt.mpr (le_start_of_mem_after h))
    obtain ⟨hLv, -, hvR⟩ := hi.around he
    have hrest : (R.map Prod.snd).flatMap (protect (min v.stop stop) stop prot) =
        (R.map Prod.snd).flatMap (protect curr stop prot) := by
      refine flatMap_congr fun w hw => ?_
      obtain ⟨hle, hpos⟩ := hvR w hw
      exact protect_congr (by omega) (by omega) hpos
    have hbefore : (L.map Prod.snd).flatMap (protect curr stop prot) = L.map Prod.snd := by
      refine flatMap_protect_of_not_meets fun w hw hmeet => ?_
      exact absurd hmeet.1 (Nat.not_lt.mpr (Nat.le_trans (hLv w hw) hh.1))
    have hmeet : v.Meets curr stop := ⟨hh.2, Nat.lt_of_le_of_lt hh.1 hend⟩
    calc _ = ((L.map Prod.snd ++ if v.start < curr then [v.before curr] else []) ++
          v.within curr (min v.stop stop) prot :: (if stop < v.stop then [v.after stop] else [])) ++
          (R.map Prod.snd).flatMap (protect (min v.stop stop) stop prot) := by
          rw [hregs', ← cons_append, ← append_assoc, flatMap_append,
            flatMap_protect_of_not_meets hdone]
      _ = L.map Prod.snd ++ protect curr stop prot v ++
          (R.map Prod.snd).flatMap (protect curr stop prot) := by
          rw [hrest, protect, if_pos hmeet, Nat.max_eq_right hh.1]
          simp
      _ = _ := by
          rw [regions, he, map_append, map_cons, flatMap_append,
            flatMap_cons, hbefore, append_assoc]

/-- **The regions after `vma_mprotect`.** -/
theorem vmaMprotect_spec (hi : Inv l) (hm : m.Plenty) (hlt : start < stop)
    (prot : ℕ) : ∃ l', vmaMprotect m l start stop prot = some l' ∧ Inv l' ∧
      l'.regions = l.regions.flatMap (protect start stop prot) := by
  let I : VmaList × ℕ → Prop := fun s => Inv s.1 ∧ start ≤ s.2 ∧
    (∀ w ∈ s.1.regions, w.Has s.2 → max w.start start = s.2) ∧
    s.1.regions.flatMap (protect s.2 stop prot) = l.regions.flatMap (protect start stop prot)
  have hstep : ∀ s, I s → (∃ s', mprotectStep m start stop prot s = .inl s' ∧ I s' ∧
        stop - s'.2 < stop - s.2) ∨ ∃ r, mprotectStep m start stop prot s = .inr r ∧
      ∃ l', r = some l' ∧ Inv l' ∧ l'.regions = l.regions.flatMap (protect start stop prot) := by
    rintro ⟨l1, curr⟩ ⟨hi₁, hs, hc, hflat⟩
    rcases mprotectStep_spec hi₁ hm hlt prot hs hc with ⟨l', h, hi', hregs⟩ |
      ⟨l', curr', h, hi', hend, hcurr, hc', hflat'⟩
    · exact .inr ⟨_, h, l', rfl, hi', hregs.trans hflat⟩
    · exact .inl ⟨_, h, ⟨hi', by omega, hc', hflat'.trans hflat⟩, by omega⟩
  have hstart : I (l, start) := ⟨hi, le_rfl, fun w _ hh => Nat.max_eq_right hh.1, rfl⟩
  obtain ⟨r, hrun, l', rfl, hpost⟩ :=
    Repeat.run_of_measure I _ _ hstep hstart (Nat.lt_succ_self (stop - start))
  exact ⟨l', by rw [vmaMprotect, hrun]; rfl, hpost⟩

/-! ## Merging -/

variable {first : ℕ × Region} {rest : List (ℕ × Region)}

/-- What is kept are some of the nodes, with their starts. -/
theorem mergeLoop_mem
    (he : e ∈ mergeLoop first rest) : ∃ d ∈ first :: rest, d.2.start = e.2.start := by
  induction rest generalizing first with
  | nil =>
    rw [mergeLoop, mem_singleton] at he
    exact ⟨first, mem_cons_self, he ▸ rfl⟩
  | cons cur rest ih =>
    rw [mergeLoop] at he
    split_ifs at he
    · obtain ⟨d, hd, h⟩ := ih he
      rcases mem_cons.mp hd with rfl | hd
      · exact ⟨first, mem_cons_self, h⟩
      · exact ⟨d, mem_cons_of_mem _ (mem_cons_of_mem _ hd), h⟩
    · rcases mem_cons.mp he with rfl | he
      · exact ⟨e, mem_cons_self, rfl⟩
      · obtain ⟨d, hd, h⟩ := ih he
        exact ⟨d, mem_cons_of_mem _ hd, h⟩

theorem mergeLoop_fst (first : ℕ × Region) (rest : List (ℕ × Region)) :
    ((mergeLoop first rest).map Prod.fst).Sublist ((first :: rest).map Prod.fst) := by
  induction rest generalizing first with
  | nil => exact Sublist.refl _
  | cons cur rest ih =>
    rw [mergeLoop]
    split_ifs
    · refine (ih _).trans ?_
      exact Sublist.cons_cons _ (sublist_cons_self _ _)
    · exact Sublist.cons_cons _ (ih cur)

/-- Regions that are merged touch, so the others stay apart. -/
theorem mergeLoop_apart (ha : Apart (first :: rest)) : Apart (mergeLoop first rest) := by
  induction rest generalizing first with
  | nil => exact ha
  | cons cur rest ih =>
    obtain ⟨hp, hs⟩ := ha
    obtain ⟨hf, hp⟩ := pairwise_cons.mp hp
    obtain ⟨hc, hp'⟩ := pairwise_cons.mp hp
    simp only [forall_mem_cons] at hs hf
    rw [mergeLoop]
    split_ifs
    · refine ih ⟨pairwise_cons.mpr ⟨hc, hp'⟩, forall_mem_cons.mpr ⟨?_, hs.2.2⟩⟩
      dsimp only
      omega
    obtain ⟨hp'', hs''⟩ := ih ⟨hp, forall_mem_cons.mpr hs.2⟩
    refine ⟨pairwise_cons.mpr ⟨fun e he => ?_, hp''⟩, forall_mem_cons.mpr ⟨hs.1, hs''⟩⟩
    obtain ⟨d, hd, h⟩ := mergeLoop_mem he
    rw [← h]
    rcases mem_cons.mp hd with rfl | hd
    · exact hf.1
    · exact hf.2 d hd

theorem Inv.flush (hi : Inv l) : Inv { l with cache := .empty } :=
  { hi with cached := fun _ h => (by cases h) }

/-- **Merging keeps the invariant.** -/
theorem Inv.merge (hi : Inv l) (room : Bool) : Inv (vmaMergeAdjacent l room) := by
  rw [vmaMergeAdjacent]
  split_ifs
  · exact hi
  · exact hi
  split
  · exact hi.flush
  rename_i first rest he
  dsimp only
  split_ifs
  · refine ⟨(vmaBuildBalanced_avl _).1, ?_, ?_, ?_, fun _ h => (by cases h)⟩
    · rw [entries_vmaBuildBalanced]
      exact mergeLoop_apart (he ▸ hi.apart)
    · rw [entries_vmaBuildBalanced]
      exact (mergeLoop_fst first rest).nodup (he ▸ hi.nodup)
    · rw [entries_vmaBuildBalanced]
  · exact hi.flush

/-! ## Cloning -/

theorem Inv.copyPolicy (hi : Inv l) (m : Memory) (v : Region) : Inv (copyPolicy m l v) := by
  rw [Vma.copyPolicy]
  obtain ⟨l', hres, hfi, hroot, -⟩ := hi.vmaFind_eq m v.start
  rw [hres]
  cases hf : l.root.entries.find? fun e => e.2.Has v.start with
  | none => exact hfi
  | some e =>
    have hh : e.2.Has v.start := by simpa using find?_some hf
    have he : e ∈ l'.root.entries := hroot ▸ mem_of_find?_eq_some hf
    refine (hfi.modify he hh fun w => ?_).2
    exact ⟨rfl, rfl⟩

theorem Inv.clone {dst : VmaList} (hi : Inv dst) (m : Memory)
    (ht : ∀ e ∈ t.entries, e.2.start < e.2.stop) : Inv (cloneRecursive m dst t).2 := by
  induction t generalizing dst with
  | nil => exact hi
  | node p v _ _ l r ihl ihr =>
    simp only [entries, mem_append, mem_cons] at ht
    have hadd := hi.add m (ht (p, v) (.inr (.inl rfl))) v.prot (unlocked v.flags) v.fd v.offset
      v.fileNode v.fileSize
    have hleft := ihl ((hadd.attach m v.start v.linuxVma).1.copyPolicy m v) fun e he =>
      ht e (.inl he)
    rw [cloneRecursive]
    dsimp only
    split_ifs
    · exact hadd
    · exact ihr hleft fun e he => ht e (.inr (.inr he))
    · exact hleft

theorem inv_vmaListClone (hi : Inv l) (m : Memory) : Inv (vmaListClone m l).2 := by
  rw [vmaListClone]
  split_ifs
  · exact inv_vmaListInit.clone m hi.apart.2
  · exact inv_vmaListInit

/-! ## Runs -/

/-- The lists that the operations produce, each with its own memory. -/
inductive Run : VmaList → Prop
  | init : Run vmaListInit
  | add {l : VmaList} (hr : Run l) {m : Memory} (hm : m.Plenty) {start stop : ℕ}
      (hlt : start < stop) (prot flags : ℕ) (fd : ℤ) (offset fileNode fileSize : ℕ) :
      Run (vmaAdd m l start stop prot flags fd offset fileNode fileSize).2
  | remove {l l' : VmaList} (hr : Run l) {m : Memory} (hm : m.Plenty) {start stop : ℕ}
      (hlt : start < stop) {b : Bool} (he : vmaRemove m l start stop = some (l', b)) : Run l'
  | mprotect {l l' : VmaList} (hr : Run l) {m : Memory} (hm : m.Plenty) {start stop : ℕ}
      (hlt : start < stop) {prot : ℕ} (he : vmaMprotect m l start stop prot = some l') : Run l'
  | merge {l : VmaList} (hr : Run l) (room : Bool) : Run (vmaMergeAdjacent l room)
  | attach {l : VmaList} (hr : Run l) (m : Memory) (start linuxVma : ℕ) :
      Run (vmaAttachLinux m l start linuxVma)
  | find {l : VmaList} (hr : Run l) (m : Memory) (addr : ℕ) : Run (vmaFind m l addr).2
  | clone {l : VmaList} (hr : Run l) {m : Memory} (hm : m.Plenty) : Run (vmaListClone m l).2

theorem Run.inv (hr : Run l) : Inv l := by
  induction hr with
  | init => exact inv_vmaListInit
  | add _ _ hlt prot flags fd offset fileNode fileSize ih =>
    exact ih.add _ hlt prot flags fd offset fileNode fileSize
  | remove _ hm hlt he ih =>
    obtain ⟨l', b, h, hi, -⟩ := vmaRemove_spec ih hm hlt
    rw [h] at he
    obtain ⟨rfl, -⟩ := Prod.mk.inj (Option.some.inj he)
    exact hi
  | mprotect _ hm hlt he ih =>
    obtain ⟨l', h, hi, -⟩ := vmaMprotect_spec ih hm hlt _
    rw [h] at he
    cases he
    exact hi
  | merge _ room ih => exact ih.merge room
  | attach _ m start linuxVma ih => exact (ih.attach m start linuxVma).1
  | find _ m addr ih => exact ih.find m addr
  | clone _ _ ih => exact inv_vmaListClone ih _

/-- Every node is after those of its left subtree and before those of its right subtree. -/
def Tree.Search : Tree → Prop
  | .nil => True
  | .node _ v _ _ l r => (∀ e ∈ l.entries, e.2.start < v.start) ∧
      (∀ e ∈ r.entries, v.start < e.2.start) ∧ l.Search ∧ r.Search

theorem Tree.Ordered.search (ho : Ordered t.entries) : t.Search := by
  induction t with
  | nil => trivial
  | node p v _ _ l r ihl ihr =>
    obtain ⟨hl, hr, hlr⟩ := pairwise_append.mp ho
    obtain ⟨hv, hr⟩ := pairwise_cons.mp hr
    exact ⟨fun e he => hlr e he (p, v) mem_cons_self, hv, ihl hl, ihr hr⟩

/-- What the list promises at every moment: the invariant of the tree, the count and the cache, that
the loops of the operations end, and that a lookup finds the one region that has the address,
whichever nodes of the tree are cached. -/
structure Promise (l : VmaList) : Prop where
  search : l.root.Search
  avl : l.root.Avl
  disjoint : l.root.entries.Pairwise fun a b => ∀ addr, ¬(a.2.Has addr ∧ b.2.Has addr)
  count : l.count = l.root.entries.length
  cached : ∀ p ∈ l.cache.nodes, p ∈ l.root.entries.map Prod.fst
  removes : ∀ (m : Memory) (start stop : ℕ), m.Plenty → start < stop →
    (vmaRemove m l start stop).isSome
  protects : ∀ (m : Memory) (start stop prot : ℕ), m.Plenty → start < stop →
    (vmaMprotect m l start stop prot).isSome
  finds : ∀ (m : Memory) (c : Mru), (∀ p ∈ c.nodes, p ∈ l.root.entries.map Prod.fst) →
    ∀ addr p v, (vmaFind m { l with cache := c } addr).1 = some (p, v) ↔
      (p, v) ∈ l.root.entries ∧ v.Has addr
  unique : ∀ e ∈ l.root.entries, ∀ e' ∈ l.root.entries, ∀ addr, e.2.Has addr → e'.2.Has addr →
    e = e'

/-- **Every list that the operations produce keeps its promise.** -/
theorem vma_list_promise (hr : Run l) : Promise l := by
  have hi := hr.inv
  refine ⟨hi.apart.ordered.search, hi.avl, ?_, hi.count, hi.cached, ?_, ?_, ?_, ?_⟩
  · refine hi.apart.1.imp fun hab addr h => ?_
    exact absurd h.1.2 (Nat.not_lt.mpr (Nat.le_trans hab h.2.1))
  · intro m start stop hm hlt
    obtain ⟨l', b, h, -⟩ := vmaRemove_spec hi hm hlt
    rw [h]
    rfl
  · intro m start stop prot hm hlt
    obtain ⟨l', h, -⟩ := vmaMprotect_spec hi hm hlt prot
    rw [h]
    rfl
  · intro m c hc addr p v
    have hi' : Inv { l with cache := c } := { hi with cached := hc }
    obtain ⟨l', h, -⟩ := hi'.vmaFind_eq m addr
    rw [h]
    refine ⟨fun h => ⟨mem_of_find?_eq_some h, by simpa using find?_some h⟩, fun h => ?_⟩
    exact find?_of_has hi.apart h.1 h.2
  · intro e he e' he' addr hh hh'
    exact Option.some.inj ((find?_of_has hi.apart he hh).symm.trans (find?_of_has hi.apart he' hh'))

/-- Memory with an address for every new node. -/
def Memory.endless : Memory where
  alloc t := some ((t.entries.map Prod.fst).sum + 1)
  stale _ := ⟨0, 0, 0, 0, 0, 0, 0, 0, 0, 0, 0, 0⟩
  fresh t p h hp := by
    cases h
    exact absurd (le_sum_of_mem hp) (Nat.not_succ_le_self _)

theorem Memory.endless_plenty : endless.Plenty := fun _ => rfl

/-- Three regions of one page. -/
def threePages : VmaList := [(0x1000, 3), (0x2000, 1), (0x3000, 3)].foldl
  (fun l r => (vmaAdd endless l r.1 (r.1 + 0x1000) r.2 0x22 (-1) 0 0 0).2) vmaListInit

theorem run_threePages : Run threePages :=
  ((Run.init.add endless_plenty (Nat.lt_add_of_pos_right (by decide)) ..).add endless_plenty
    (Nat.lt_add_of_pos_right (by decide)) ..).add endless_plenty
    (Nat.lt_add_of_pos_right (by decide)) ..

/-- Three regions, the second of them removed. -/
theorem vma_list_promise_three : ∃ l, Run l ∧ l.count = 2 ∧ Promise l := by
  obtain ⟨l', b, he, hi, hregs, -⟩ := vmaRemove_spec run_threePages.inv endless_plenty
    (by decide : 0x2000 < 0x3000)
  have hr := run_threePages.remove endless_plenty (by decide) he
  refine ⟨l', hr, ?_, vma_list_promise hr⟩
  have hlen : l'.root.entries.length = l'.regions.length := (length_map _).symm
  rw [hi.count, hlen, hregs]
  decide +kernel

/-- A tree has twice as many regions as a tree that is lower by `2`. -/
theorem Tree.Avl.two_pow_le (h : t.Avl) : 2 ^ (t.getHeight / 2) ≤ t.entries.length + 1 := by
  induction t with
  | nil => exact le_rfl
  | node p v m x l r ihl ihr =>
    obtain ⟨-, rfl, hlow, hhigh, hl, hr⟩ := h
    have hhalf : ∀ n, min l.getHeight r.getHeight ≤ n →
        2 ^ ((1 + max l.getHeight r.getHeight) / 2) ≤ 2 * 2 ^ (n / 2) := by
      intro n hn
      rw [← Nat.pow_succ']
      exact Nat.pow_le_pow_right (by decide) (by omega)
    have hleft := hhalf _ (Nat.min_le_left _ _)
    have hright := hhalf _ (Nat.min_le_right _ _)
    have := ihl hl
    have := ihr hr
    rw [getHeight, entries, length_append, length_cons]
    omega

/-- **The tree is low**: `n` regions make at most `2 log2 (n + 1) + 1` levels. -/
theorem vma_levels (hr : Run l) : 2 ^ (l.root.getHeight / 2) ≤ l.regions.length + 1 := by
  rw [regions, length_map]
  exact hr.inv.avl.two_pow_le

theorem vma_levels_three :
    ∃ l, Run l ∧ l.count = 3 ∧ 2 ^ (l.root.getHeight / 2) ≤ l.regions.length + 1 :=
  ⟨_, run_threePages, by decide +kernel, vma_levels run_threePages⟩

end AvoryOS.Vma
