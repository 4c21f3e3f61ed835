import AvoryOS.Radix.Walks

/-!
# Lookups without the lock

A lookup without the lock loads the tree's sequence, walks the tree, and loads the sequence
again.  An operation that changes the tree makes the sequence odd before its first store and even
after its last.  The cached form keeps, for all lookups of a file together, the last leaf that a
lookup found, with its chunk of keys and the sequence at that time, and loads from that leaf if
both match.

Loads and stores are single steps in one order.  Readers are as many as there are, each one
lookup; writers take turns under the lock, so that there is one operation at a time, with its
stores still to come.  The sequence has `32` bits.  Memory is never taken away from a reader.

The system carries two things that the code does not have: the map, which changes when an
operation is over, and for each reader the values that the map has had for its key since it
started.
-/

namespace AvoryOS.Radix

open Function Option

/-! ## The code -/

/-- The cached leaf: `pc_cache_chunk`, `pc_cache_leaf` and `pc_cache_seq` of a file. -/
structure Cache where
  chunk : ℕ
  leaf : ℕ
  seq : ℕ

structure Shared where
  tree : Tree
  seq : ℕ
  cache : Cache

/-- The next load or store of a lookup; `s1` is the sequence it has loaded first. -/
inductive Pc
  | start
  | loadChunk (s1 : ℕ)
  | loadLeaf (s1 : ℕ)
  | loadSeq (s1 : ℕ)
  /-- The code loads the cached leaf a second time to use it. -/
  | reloadLeaf (s1 : ℕ)
  | hit (s1 leaf : ℕ)
  | loadRoot (s1 : ℕ)
  | loadHeight (s1 node : ℕ)
  | walk (s1 level node : ℕ)
  | storeChunk (s1 node v : ℕ)
  | storeLeaf (s1 node v : ℕ)
  | storeSeq (s1 node v : ℕ)
  | check (s1 v : ℕ)
  | done (stable : Bool) (v : ℕ)
  deriving DecidableEq

/-- The sequence that a lookup at work has loaded. -/
def Pc.first : Pc → Option ℕ
  | .start | .done _ _ => none
  | .loadChunk s1 | .loadLeaf s1 | .loadSeq s1 | .reloadLeaf s1 | .hit s1 _ | .loadRoot s1
  | .loadHeight s1 _ | .walk s1 _ _ | .storeChunk s1 _ _ | .storeLeaf s1 _ _ | .storeSeq s1 _ _
  | .check s1 _ => some s1

/-- One step of `asc_radix_tree_lookup_lockless`, or of `asc_radix_tree_lookup_lockless_cached`
if there is a cached leaf. -/
def read (cached : Bool) (k : ℕ) (s : Shared) : Pc → Pc × Cache
  | .start =>
    if s.seq % 2 = 1 then (.done false 0, s.cache)
    else if cached then (.loadChunk s.seq, s.cache)
    else (.loadRoot s.seq, s.cache)
  | .loadChunk s1 => (if s.cache.chunk = k / 64 then .loadLeaf s1 else .loadRoot s1, s.cache)
  | .loadLeaf s1 => (if s.cache.leaf ≠ 0 then .loadSeq s1 else .loadRoot s1, s.cache)
  | .loadSeq s1 => (if s.cache.seq = s1 then .reloadLeaf s1 else .loadRoot s1, s.cache)
  | .reloadLeaf s1 => (.hit s1 s.cache.leaf, s.cache)
  | .hit s1 leaf => (.check s1 ((s.tree.heap leaf).slots (k % 64)), s.cache)
  | .loadRoot s1 => (.loadHeight s1 s.tree.root, s.cache)
  | .loadHeight s1 node =>
    -- corrupt geometry is left to the locked path
    if node ≠ 0 ∧ (s.tree.height = 0 ∨ 11 < s.tree.height) then (.done false 0, s.cache)
    else if node ≠ 0 ∧ requiredHeight k ≤ s.tree.height then
      (.walk s1 (s.tree.height - 1) node, s.cache)
    else (.check s1 0, s.cache)
  | .walk s1 (level + 1) node =>
    let child := (s.tree.heap node).slots (radixSlot k (level + 1))
    (if child = 0 then .check s1 0 else .walk s1 level child, s.cache)
  | .walk s1 0 node =>
    let v := (s.tree.heap node).slots (radixSlot k 0)
    (if cached then .storeChunk s1 node v else .check s1 v, s.cache)
  | .storeChunk s1 node v => (.storeLeaf s1 node v, { s.cache with chunk := k / 64 })
  | .storeLeaf s1 node v => (.storeSeq s1 node v, { s.cache with leaf := node })
  | .storeSeq s1 _ v => (.check s1 v, { s.cache with seq := s1 })
  | .check s1 v => (if s.seq = s1 then .done true v else .done false 0, s.cache)
  | .done stable v => (.done stable v, s.cache)

inductive Op
  | insert (k v : ℕ) (alloc : List ℕ)
  | replace (k v : ℕ)
  | delete (k : ℕ)

def Op.writes (t : Tree) : Op → List Write
  | .insert k v alloc => (Radix.insert t k v alloc).2
  | .replace k v => (Radix.replace t k v).2
  | .delete k => (Radix.delete t k).2

def Op.after (t : Tree) (m : ℕ → ℕ) : Op → ℕ → ℕ
  | .insert k v alloc =>
    if (Radix.insert t k v alloc).1 = .ok then update m k v else m
  | .replace k v => if v = 0 ∨ m k = 0 then m else update m k v
  | .delete k => update m k 0

/-- Values are not null, keys have `64` bits, and new nodes are not in use. -/
def Op.Ok (t : Tree) : Op → Prop
  | .insert k v alloc => v ≠ 0 ∧ k < 2 ^ 64 ∧ Fresh t alloc
  | .replace k v => v ≠ 0 ∧ k < 2 ^ 64
  | .delete k => k < 2 ^ 64

theorem Op.inv {t : Tree} {m : ℕ → ℕ} (h : Inv t m) {op : Op} (hok : op.Ok t) :
    Inv (t.run (op.writes t)) (op.after t m) := by
  cases op with
  | insert k v alloc => exact h.insert hok.2.1 hok.2.2
  | replace k v => exact (replace_spec h hok.2).2
  | delete k => exact (delete_spec h hok).2

/-! ## The system -/

section

variable {ι : Type} [DecidableEq ι]

structure Sys (ι : Type) where
  shared : Shared
  /-- The stores that the operation at work has still to make, and the map after it. -/
  writer : Option (List Write × (ℕ → ℕ))
  map : ℕ → ℕ
  /-- How many operations there have been, and how many when each reader started and when the
  cached sequence was loaded. -/
  ops : ℕ
  began : ι → ℕ
  stamp : ℕ
  pc : ι → Pc
  /-- The values of the reader's key since it started. -/
  held : ι → List ℕ

inductive Act (ι : Type)
  | read (i : ι)
  /-- The lock is taken and the sequence becomes odd. -/
  | begin (op : Op)
  | store
  | finish

def Shared.bump (s : Shared) : Shared := { s with seq := (s.seq + 1) % 2 ^ 32 }

/-- One step; `key` and `cached` say which lookups there are. -/
def step (key : ι → ℕ) (cached : ι → Bool) (s : Sys ι) : Act ι → Option (Sys ι)
  | .read i =>
    let r := Radix.read (cached i) (key i) s.shared (s.pc i)
    some { s with
      shared := { s.shared with cache := r.2 }
      pc := update s.pc i r.1
      began := if s.pc i = .start then update s.began i s.ops else s.began
      held := if s.pc i = .start then update s.held i [s.map (key i)] else s.held
      stamp := match s.pc i with
        | .storeSeq _ _ _ => s.began i
        | _ => s.stamp }
  | .begin op =>
    match s.writer with
    | none => some { s with
        shared := s.shared.bump
        writer := some (op.writes s.shared.tree, op.after s.shared.tree s.map)
        ops := s.ops + 1 }
    | some _ => none
  | .store =>
    match s.writer with
    | some (w :: ws, m) => some { s with
        shared := { s.shared with tree := s.shared.tree.write w }
        writer := some (ws, m) }
    | _ => none
  | .finish =>
    match s.writer with
    | some ([], m) => some { s with
        shared := s.shared.bump
        writer := none
        map := m
        held := fun i =>
          if (s.pc i).first = none then s.held i else m (key i) :: s.held i }
    | _ => none

/-! ## Walks in a tree that does not change -/

def leafOf (t : Tree) (k : ℕ) : ℕ :=
  if t.root = 0 ∨ t.height < requiredHeight k then 0 else descend t k (t.height - 1) t.root

theorem lookup_leafOf (t : Tree) (k : ℕ) :
    lookup t k = if leafOf t k = 0 then 0 else (t.heap (leafOf t k)).slots (radixSlot k 0) := by
  rw [lookup, leafOf]
  split
  · rfl
  · rfl

/-- What a lookup has found, if the tree has not changed since it started. -/
def Good (t : Tree) (k : ℕ) : Pc → Prop
  | .hit _ leaf => leaf ≠ 0 ∧ leaf = leafOf t k
  | .loadHeight _ node => node = t.root
  | .walk _ level node => node ≠ 0 ∧ leafOf t k = descend t k level node
  | .storeChunk _ node v | .storeLeaf _ node v | .storeSeq _ node v =>
    node ≠ 0 ∧ node = leafOf t k ∧ v = lookup t k
  | .check _ v => v = lookup t k
  | _ => True

variable {t : Tree} {k : ℕ}

theorem lookup_of_leaf {leaf : ℕ} (h0 : leaf ≠ 0) (h : leaf = leafOf t k) :
    (t.heap leaf).slots (radixSlot k 0) = lookup t k := by
  rw [lookup_leafOf, ← h, if_neg h0]

variable {cached : Bool} {pc : Pc}

theorem Good.read {s : Shared} (h : Good s.tree k pc)
    (hc : ∀ s1, pc = .reloadLeaf s1 → s.cache.leaf ≠ 0 ∧ s.cache.leaf = leafOf s.tree k) :
    Good s.tree k (Radix.read cached k s pc).1 := by
  cases pc with
  | start | loadChunk s1 | loadLeaf s1 | loadSeq s1 | check s1 v =>
    rw [read]
    split_ifs <;> trivial
  | reloadLeaf s1 => exact hc s1 rfl
  | hit s1 leaf =>
    have := lookup_of_leaf h.1 h.2
    exact this
  | loadRoot s1 => exact rfl
  | loadHeight s1 node =>
    obtain rfl : node = s.tree.root := h
    rw [read]
    split
    · trivial
    split
    · next hn =>
      refine ⟨hn.1, ?_⟩
      rw [leafOf, if_neg (by omega)]
    next hn =>
    change 0 = lookup s.tree k
    rw [lookup, if_pos]
    by_cases hr : s.tree.root = 0
    · exact .inl hr
    · exact .inr (Nat.lt_of_not_le fun hle => hn ⟨hr, hle⟩)
  | walk s1 level node =>
    cases level with
    | zero =>
      obtain ⟨h0, h1⟩ := h
      have hv := lookup_of_leaf h0 h1.symm
      cases cached
      · exact hv
      · exact ⟨h0, h1.symm, hv⟩
    | succ level =>
      obtain ⟨h0, h1⟩ := h
      rw [descend] at h1
      rw [read]
      split
      · next hz =>
        rw [if_pos hz] at h1
        change 0 = lookup s.tree k
        rw [lookup_leafOf, if_pos h1]
      · next hz =>
        rw [if_neg hz] at h1
        exact ⟨hz, h1⟩
  | storeChunk s1 node v => exact h
  | storeLeaf s1 node v => exact h
  | storeSeq s1 node v => exact h.2.2
  | done stable v => trivial

/-- The program points of the lookup without a cached leaf. -/
def Pc.Plain : Pc → Prop
  | .start | .loadRoot _ | .loadHeight _ _ | .walk _ _ _ | .check _ _ | .done _ _ => True
  | _ => False

/-- Between the first and the last store of the cached leaf. -/
def Pc.Storing : Pc → Prop
  | .storeLeaf _ _ _ | .storeSeq _ _ _ => True
  | _ => False

/-- Between the first and the last load of the cached leaf. -/
def Pc.Loading : Pc → Prop
  | .loadLeaf _ | .loadSeq _ | .reloadLeaf _ => True
  | _ => False

/-- Where a step of a lookup leads, and when it stores the cached leaf. -/
structure Leads (cached : Bool) (cache : Cache) (pc : Pc) (r : Pc × Cache) : Prop where
  first : pc ≠ .start → ∀ s1, r.1.first = some s1 → pc.first = some s1
  plain : cached = false → pc.Plain → r.1.Plain
  store : r.1.Storing ∨ r.2 ≠ cache → (∃ s1 node v, pc = .storeChunk s1 node v) ∨ pc.Storing
  load : r.1.Loading → (∃ s1, pc = .loadChunk s1) ∨ pc.Loading

theorem leads_read (cached : Bool) (k : ℕ) (s : Shared) (pc : Pc) :
    Leads cached s.cache pc (Radix.read cached k s pc) := by
  constructor <;> cases pc with
  | walk s1 level node =>
    cases level <;> simp only [read] <;> split_ifs <;>
      simp_all [Pc.first, Pc.Plain, Pc.Storing, Pc.Loading]
  | _ =>
    simp only [read]
    try split_ifs
    all_goals simp_all [Pc.first, Pc.Plain, Pc.Storing, Pc.Loading]

/-! ## Runs -/

/-- What the assumptions allow: proper operations, and fewer than `2 ^ 31` of them. -/
def Allowed (s : Sys ι) : Act ι → Prop
  | .begin op => op.Ok s.shared.tree ∧ s.ops + 1 < 2 ^ 31
  | _ => True

/-- The runs whose steps satisfy `care`, from any tree with an even sequence and no cached leaf. -/
inductive Reach (key : ι → ℕ) (cached : ι → Bool) (care : Sys ι → Act ι → Prop) (seq : ℕ) :
    Sys ι → Prop
  | init {t : Tree} {m : ℕ → ℕ} (hr : Run t m) {cache : Cache} (hl : cache.leaf = 0) :
      Reach key cached care seq
        ⟨⟨t, seq, cache⟩, none, m, 0, fun _ => 0, 0, fun _ => .start, fun _ => []⟩
  | step {s s' : Sys ι} {a : Act ι} (hr : Reach key cached care seq s) (ha : Allowed s a)
      (hc : care s a) (hs : step key cached s a = some s') : Reach key cached care seq s'

variable {key : ι → ℕ} {cached : ι → Bool} {care : Sys ι → Act ι → Prop} {seq : ℕ}
  {s s' : Sys ι} {a : Act ι}

/-- The tree has the map unless an operation is at work, and the sequence counts operations. -/
structure Base (seq : ℕ) (s : Sys ι) : Prop where
  even : seq % 2 = 0
  few : s.ops < 2 ^ 31
  idle : s.writer = none → Inv s.shared.tree s.map ∧ s.shared.seq = (seq + 2 * s.ops) % 2 ^ 32
  busy : ∀ ws m, s.writer = some (ws, m) → Inv (s.shared.tree.run ws) m ∧ 0 < s.ops ∧
    s.shared.seq = (seq + 2 * s.ops - 1) % 2 ^ 32

theorem Base.step (h : Base seq s) (ha : Allowed s a) (hs : step key cached s a = some s') :
    Base seq s' := by
  cases a with
  | read i =>
    cases hs
    exact ⟨h.even, h.few, h.idle, h.busy⟩
  | begin op =>
    rw [step] at hs
    split at hs
    · next hw =>
      cases hs
      obtain ⟨hi, hq⟩ := h.idle hw
      refine ⟨h.even, ha.2, fun e => (by cases e), fun ws m e => ?_⟩
      obtain ⟨rfl, rfl⟩ := Prod.mk.inj (some.inj e)
      refine ⟨Op.inv hi ha.1, Nat.succ_pos _, ?_⟩
      change (s.shared.seq + 1) % 2 ^ 32 = (seq + 2 * (s.ops + 1) - 1) % 2 ^ 32
      omega
    · cases hs
  | store =>
    rw [step] at hs
    split at hs
    · next w ws m hw =>
      cases hs
      obtain ⟨h1, h2, h3⟩ := h.busy _ _ hw
      refine ⟨h.even, h.few, fun e => (by cases e), fun ws' m' e => ?_⟩
      obtain ⟨rfl, rfl⟩ := Prod.mk.inj (some.inj e)
      exact ⟨h1, h2, h3⟩
    · cases hs
  | finish =>
    rw [step] at hs
    split at hs
    · next m hw =>
      cases hs
      obtain ⟨h1, h2, h3⟩ := h.busy _ _ hw
      refine ⟨h.even, h.few, fun _ => ⟨h1, ?_⟩, fun ws' m' e => (by cases e)⟩
      change (s.shared.seq + 1) % 2 ^ 32 = (seq + 2 * s.ops) % 2 ^ 32
      omega
    · cases hs

omit [DecidableEq ι] in
/-- A reader that has loaded the current sequence has seen no operation. -/
theorem Base.no_op (h : Base seq s) {n : ℕ} (hn : n ≤ s.ops)
    (he : s.shared.seq = (seq + 2 * n) % 2 ^ 32) : s.writer = none ∧ n = s.ops := by
  have hfew := h.few
  cases hw : s.writer with
  | none =>
    have := (h.idle hw).2
    exact ⟨rfl, by omega⟩
  | some w =>
    obtain ⟨-, hpos, hq⟩ := h.busy w.1 w.2 hw
    omega

structure Reading (key : ι → ℕ) (seq : ℕ) (s : Sys ι) (i : ι) : Prop where
  first : ∀ s1, (s.pc i).first = some s1 → s1 = (seq + 2 * s.began i) % 2 ^ 32 ∧
    s.began i ≤ s.ops ∧ (s.writer ≠ none → s.began i < s.ops) ∧ s.map (key i) ∈ s.held i
  good : s.writer = none → s.began i = s.ops → Good s.shared.tree (key i) (s.pc i)
  result : ∀ v, s.pc i = .done true v → v ∈ s.held i

variable {i : ι}

theorem Reading.other (h : Reading key seq s i) (ha : a ≠ .read i)
    (hs : step key cached s a = some s') : Reading key seq s' i := by
  cases a with
  | read j =>
    cases hs
    have hne : i ≠ j := fun e => ha (by rw [e])
    have hsame : ∀ {β : Type} (f : ι → β) x,
        (if s.pc j = .start then update f j x else f) i = f i := by
      intro β f x
      split
      · exact update_of_ne hne ..
      · rfl
    refine ⟨?_, ?_, ?_⟩ <;> simp only [update_of_ne hne, hsame]
    · exact h.first
    · exact h.good
    · exact h.result
  | begin op =>
    rw [step] at hs
    split at hs
    · cases hs
      refine ⟨fun s1 he => ?_, fun hw => (by cases hw), h.result⟩
      obtain ⟨h1, h2, -, h4⟩ := h.first s1 he
      exact ⟨h1, Nat.le_succ_of_le h2, fun _ => Nat.lt_succ_of_le h2, h4⟩
    · cases hs
  | store =>
    rw [step] at hs
    split at hs
    · next hw =>
      cases hs
      refine ⟨fun s1 he => ?_, fun hw => (by cases hw), h.result⟩
      obtain ⟨h1, h2, h3, h4⟩ := h.first s1 he
      exact ⟨h1, h2, fun _ => h3 (by rw [hw]; exact some_ne_none _), h4⟩
    · cases hs
  | finish =>
    rw [step] at hs
    split at hs
    swap
    · cases hs
    next m hw =>
    cases hs
    have hlt : ∀ s1, (s.pc i).first = some s1 → s.began i < s.ops := fun s1 he =>
      (h.first s1 he).2.2.1 (by rw [hw]; exact some_ne_none _)
    refine ⟨fun s1 he => ?_, fun _ hn => ?_, fun v he => ?_⟩
    · obtain ⟨h1, h2, -, -⟩ := h.first s1 he
      refine ⟨h1, h2, absurd rfl, ?_⟩
      dsimp only
      rw [if_neg (by rw [he]; exact some_ne_none _)]
      exact List.mem_cons_self
    · cases hf : (s.pc i).first with
      | some s1 => exact absurd hn (Nat.ne_of_lt (hlt s1 hf))
      | none =>
        cases hpc : s.pc i with
        | start => trivial
        | done stable v => trivial
        | _ =>
          rw [hpc] at hf
          cases hf
    · dsimp only at he ⊢
      rw [if_pos (by rw [he]; rfl)]
      exact h.result v he

/-- Any step, if a cached leaf that is about to be used is the right one. -/
theorem Reading.step (hb : Base seq s) (hk : key i < 2 ^ 64) (h : Reading key seq s i)
    (hc : ∀ s1, s.pc i = .reloadLeaf s1 → s.writer = none → s.began i = s.ops →
      s.shared.cache.leaf ≠ 0 ∧ s.shared.cache.leaf = leafOf s.shared.tree (key i))
    (hs : step key cached s a = some s') : Reading key seq s' i := by
  by_cases ha : a = .read i
  swap
  · exact h.other ha hs
  subst ha
  cases hs
  have heven := hb.even
  by_cases hstart : s.pc i = .start
  · -- the first load: the reader goes on only if no operation is at work
    have hpc : ∀ s1, (read (cached i) (key i) s.shared (s.pc i)).1.first = some s1 →
        s1 = s.shared.seq ∧ s.writer = none := by
      intro s1 he
      rw [hstart, read] at he
      split at he
      · cases he
      next hodd =>
      have hw : s.writer = none := by
        cases hw : s.writer with
        | none => rfl
        | some w =>
          obtain ⟨-, hpos, hq⟩ := hb.busy w.1 w.2 hw
          omega
      split at he <;> exact ⟨(some.inj he).symm, hw⟩
    refine ⟨fun s1 he => ?_, fun hw _ => ?_, fun v he => ?_⟩
    · dsimp only at he ⊢
      rw [update_self] at he
      obtain ⟨rfl, hw⟩ := hpc s1 he
      simp only [if_pos hstart, update_self]
      exact ⟨(hb.idle hw).2, le_rfl, absurd hw, List.mem_singleton_self _⟩
    · dsimp only
      rw [update_self, hstart]
      have hg : Good s.shared.tree (key i) .start := trivial
      exact hg.read fun s1 e => (by cases e)
    dsimp only at he
    rw [update_self, hstart, read] at he
    split_ifs at he
    cases he
  have hfirst : ∀ s1, (read (cached i) (key i) s.shared (s.pc i)).1.first = some s1 →
      (s.pc i).first = some s1 := (leads_read ..).first hstart
  simp only [if_neg hstart]
  refine ⟨fun s1 he => ?_, fun hw hn => ?_, fun v he => ?_⟩
  · dsimp only at he ⊢
    rw [update_self] at he
    exact h.first s1 (hfirst s1 he)
  · dsimp only
    rw [update_self]
    exact (h.good hw hn).read fun s1 e => hc s1 e hw hn
  dsimp only at he ⊢
  rw [update_self] at he
  -- a result is stable only if the sequence has not changed
  cases hpc : s.pc i with
  | check s1 w =>
    rw [hpc, read] at he
    split at he
    · next hq =>
      obtain ⟨h1, h2, -, h4⟩ := h.first s1 (by rw [hpc]; rfl)
      obtain ⟨hw, hn⟩ := hb.no_op h2 (hq.trans h1)
      have hgood := h.good hw hn
      rw [hpc] at hgood
      obtain rfl : w = v := by
        injection he
      rw [show w = lookup s.shared.tree (key i) from hgood, (hb.idle hw).1.lookup_eq hk]
      exact h4
    · cases he
  | done stable w =>
    rw [hpc] at he
    exact h.result v (hpc.trans he)
  | start => exact absurd hpc hstart
  | walk s1 level node =>
    rw [hpc] at he
    cases level <;> rw [read] at he <;> split at he <;> cases he
  | loadHeight s1 node | loadChunk s1 | loadLeaf s1 | loadSeq s1 =>
    rw [hpc, read] at he
    split_ifs at he <;> cases he
  | _ =>
    rw [hpc] at he
    cases he

theorem Base.reach (heven : seq % 2 = 0) (hseq : seq < 2 ^ 32)
    (hr : Reach key cached care seq s) : Base seq s := by
  induction hr with
  | init hr hl =>
    refine ⟨heven, Nat.two_pow_pos 31, fun _ => ⟨hr.inv, ?_⟩, fun ws m e => (by cases e)⟩
    exact (Nat.mod_eq_of_lt hseq).symm
  | step _ ha _ hs ih => exact ih.step ha hs

/-! ## The lookup -/

theorem step_pc (hs : step key cached s a = some s') :
    s'.pc i = s.pc i ∨ a = .read i ∧ s'.pc i =
      (Radix.read (cached i) (key i) s.shared (s.pc i)).1 := by
  cases a with
  | read j =>
    cases hs
    by_cases hij : i = j
    · subst hij
      exact .inr ⟨rfl, update_self ..⟩
    · exact .inl (update_of_ne hij ..)
  | begin op | store | finish =>
    rw [step] at hs
    split at hs
    · cases hs
      exact .inl rfl
    · cases hs

/-- **A stable result of the lookup is a value that the map had meanwhile**, with any operations
and any other readers between its loads. -/
theorem lookup_is_current (hr : Reach key cached (fun _ _ => True) seq s) (heven : seq % 2 = 0)
    (hseq : seq < 2 ^ 32) {i : ι} (hk : key i < 2 ^ 64) (hi : cached i = false) {v : ℕ}
    (hd : s.pc i = .done true v) : v ∈ s.held i := by
  have hinv : (s.pc i).Plain ∧ Reading key seq s i := by
    clear hd
    induction hr with
    | init hr hl =>
      exact ⟨trivial, fun s1 e => (by cases e), fun _ _ => trivial, fun v e => (by cases e)⟩
    | step hr ha _ hs ih =>
      obtain ⟨hplain, hread⟩ := ih
      have hbase := Base.reach heven hseq hr
      refine ⟨?_, ?_⟩
      · rcases step_pc hs with he | ⟨-, he⟩
        · rw [he]
          exact hplain
        · rw [he, hi]
          exact (leads_read ..).plain rfl hplain
      · refine hread.step hbase hk (fun s1 e => ?_) hs
        rw [e] at hplain
        exact hplain.elim
  exact hinv.2.result v hd

/-! ## The cached leaf -/

/-- No reader begins to load the cached leaf while another stores it, and none begins to store it
while another loads or stores it. -/
def Careful (s : Sys ι) : Act ι → Prop
  | .read i =>
    match s.pc i with
    | .loadChunk _ => ∀ j, j ≠ i → ¬(s.pc j).Storing
    | .storeChunk _ _ _ => ∀ j, j ≠ i → ¬(s.pc j).Storing ∧ ¬(s.pc j).Loading
    | _ => True
  | _ => True

/-- What a reader in the middle of the cached leaf knows of it. -/
def Match (k : ℕ) (c : Cache) : Pc → Prop
  | .loadLeaf _ => c.chunk = k / 64
  | .loadSeq _ => c.chunk = k / 64 ∧ c.leaf ≠ 0
  | .reloadLeaf s1 => c.chunk = k / 64 ∧ c.leaf ≠ 0 ∧ c.seq = s1
  | .storeLeaf _ _ _ => c.chunk = k / 64
  | .storeSeq _ node _ => c.chunk = k / 64 ∧ c.leaf = node
  | _ => True

theorem Match.of_not {c : Cache} (h1 : ¬pc.Storing) (h2 : ¬pc.Loading) : Match k c pc := by
  cases pc with
  | loadLeaf s1 | loadSeq s1 | reloadLeaf s1 => exact (h2 trivial).elim
  | storeLeaf s1 node v | storeSeq s1 node v => exact (h1 trivial).elim
  | _ => trivial

variable {c : Bool}

theorem Match.read {s : Shared} (h : Match k s.cache pc) :
    Match k (Radix.read c k s pc).2 (Radix.read c k s pc).1 := by
  cases pc with
  | start | loadHeight s1 node | check s1 v =>
    rw [read]
    split_ifs <;> trivial
  | walk s1 level node => cases level <;> rw [read] <;> split <;> trivial
  | loadChunk s1 =>
    rw [read]
    split
    · next he => exact he
    · trivial
  | loadLeaf s1 =>
    rw [read]
    split
    · next he => exact ⟨h, he⟩
    · trivial
  | loadSeq s1 =>
    rw [read]
    split
    · next he => exact ⟨h.1, h.2, he⟩
    · trivial
  | storeChunk s1 node v => exact rfl
  | storeLeaf s1 node v => exact ⟨h, rfl⟩
  | _ => trivial

/-- The cached leaf: readers do not overlap on it, and when none stores it, it is the leaf of its
chunk for as long as the tree does not change. -/
structure Sound (key : ι → ℕ) (seq : ℕ) (s : Sys ι) : Prop where
  excl : ∀ i j, i ≠ j → (s.pc i).Storing → ¬(s.pc j).Storing ∧ ¬(s.pc j).Loading
  fits : ∀ i, Match (key i) s.shared.cache (s.pc i)
  leaf : (∀ i, ¬(s.pc i).Storing) → s.shared.cache.leaf ≠ 0 →
    s.stamp ≤ s.ops ∧ (s.writer ≠ none → s.stamp < s.ops) ∧
    s.shared.cache.seq = (seq + 2 * s.stamp) % 2 ^ 32 ∧
    (s.writer = none → s.stamp = s.ops → ∃ x, x < 2 ^ 64 ∧ x / 64 = s.shared.cache.chunk ∧
      s.shared.cache.leaf = leafOf s.shared.tree x)

theorem Inv.leafOf_eq {m : ℕ → ℕ} (h : Inv t m) {x : ℕ} (hx : x < 2 ^ 64)
    (hk : k < 2 ^ 64) (he : x / 64 = k / 64) : leafOf t x = leafOf t k := by
  obtain ⟨C, hs, -⟩ := h.cells
  have hleaf : ∀ y, y < 2 ^ 64 → leafOf t y = C 1 (cellOf y 1) := by
    intro y hy
    rw [leafOf]
    split
    · next hn =>
      by_contra hne
      obtain ⟨hle, z, hz, hzy⟩ := hs.live_iff.mp (Ne.symm hne)
      have hroot := hs.root_ne_zero hz
      have hfit : cellOf y t.height = 0 := by
        rw [← cellOf_eq_of_le hzy hle]
        exact (hs.fits z hz).2
      have := (requiredHeight_le_iff hy hle).mpr hfit
      omega
    · next hn =>
      obtain ⟨hr, hle⟩ := not_or.mp hn
      obtain ⟨he, hre⟩ := hs.root_eq hr hy (by omega)
      have := hs.descend_eq (Nat.le_of_eq he) (hre ▸ hr)
      rwa [← hre] at this
  rw [hleaf x hx, hleaf k hk, cellOf_succ, cellOf_succ, cellOf_zero, cellOf_zero, he]

omit [DecidableEq ι] in
/-- A reader that is about to use the cached leaf has the right one. -/
theorem Sound.hit {s1 : ℕ} (h : Sound key seq s) (hb : Base seq s)
    (hr : Reading key seq s i) (hk : key i < 2 ^ 64) (hpc : s.pc i = .reloadLeaf s1)
    (hw : s.writer = none) (hn : s.began i = s.ops) :
    s.shared.cache.leaf ≠ 0 ∧ s.shared.cache.leaf = leafOf s.shared.tree (key i) := by
  have hm := h.fits i
  rw [hpc] at hm
  obtain ⟨h1, h2, h3⟩ := hm
  have hno : ∀ j, ¬(s.pc j).Storing := by
    intro j hj
    have hne : j ≠ i := by
      rintro rfl
      rw [hpc] at hj
      exact hj
    refine (h.excl j i hne hj).2 ?_
    rw [hpc]
    trivial
  obtain ⟨g1, -, g3, g4⟩ := h.leaf hno h2
  obtain ⟨f1, -, -, -⟩ := hr.first s1 (by rw [hpc]; rfl)
  have hfew := hb.few
  obtain ⟨x, hx, hx1, hx2⟩ := g4 hw (by omega)
  refine ⟨h2, ?_⟩
  rw [hx2, (hb.idle hw).1.leafOf_eq hx hk (hx1.trans h1)]

theorem Sound.read (h : Sound key seq s) (hr : Reading key seq s i)
    (hk : key i < 2 ^ 64) (hc : Careful s (.read i))
    (hs : Radix.step key cached s (.read i) = some s') : Sound key seq s' := by
  cases hs
  -- a reader that goes on to store or load meets no other
  have hstore : ((read (cached i) (key i) s.shared (s.pc i)).1.Storing ∨
      (read (cached i) (key i) s.shared (s.pc i)).2 ≠ s.shared.cache) →
      ∀ j, j ≠ i → ¬(s.pc j).Storing ∧ ¬(s.pc j).Loading := by
    intro hst j hj
    have hcase : (∃ s1 node v, s.pc i = .storeChunk s1 node v) ∨ (s.pc i).Storing :=
      (leads_read ..).store hst
    rcases hcase with ⟨s1, node, v, he⟩ | hst
    · rw [Careful, he] at hc
      exact hc j hj
    · exact h.excl i j (Ne.symm hj) hst
  have hload : (read (cached i) (key i) s.shared (s.pc i)).1.Loading →
      ∀ j, j ≠ i → ¬(s.pc j).Storing := by
    intro hld j hj hst
    rcases (leads_read ..).load hld with ⟨s1, he⟩ | hld
    · rw [Careful, he] at hc
      exact hc j hj hst
    · exact (h.excl j i hj hst).2 hld
  refine ⟨?_, ?_, ?_⟩
  · intro a b hab hst
    dsimp only at hst ⊢
    by_cases ha : a = i
    · subst ha
      rw [update_self] at hst
      rw [update_of_ne (Ne.symm hab)]
      exact hstore (.inl hst) b (Ne.symm hab)
    rw [update_of_ne ha] at hst
    by_cases hb : b = i
    · subst hb
      rw [update_self]
      exact ⟨fun hst' => (hstore (.inl hst') a ha).1 hst, fun hld => hload hld a ha hst⟩
    · rw [update_of_ne hb]
      exact h.excl a b hab hst
  · intro j
    dsimp only
    by_cases hj : j = i
    · subst hj
      rw [update_self]
      exact (h.fits j).read
    rw [update_of_ne hj]
    by_cases hcache : (read (cached i) (key i) s.shared (s.pc i)).2 = s.shared.cache
    · rw [hcache]
      exact h.fits j
    · obtain ⟨h1, h2⟩ := hstore (.inr hcache) j hj
      exact Match.of_not h1 h2
  intro hno hne
  have hown : ¬(read (cached i) (key i) s.shared (s.pc i)).1.Storing := by
    have := hno i
    dsimp only at this
    rwa [update_self] at this
  by_cases hlast : ∃ s1 node v, s.pc i = .storeSeq s1 node v
  · -- the last store: the leaf is the one the reader has found
    obtain ⟨s1, node, v, he⟩ := hlast
    have hm := h.fits i
    obtain ⟨h1, h2, h3, -⟩ := hr.first s1 (by rw [he]; rfl)
    have hgood := hr.good
    rw [he] at hm hgood
    simp only [he]
    refine ⟨h2, h3, h1, fun hw hn => ?_⟩
    obtain ⟨-, g2, -⟩ := hgood hw hn
    exact ⟨key i, hk, hm.1.symm, hm.2.trans g2⟩
  have hbefore : ¬(s.pc i).Storing := by
    intro hst
    cases hpc : s.pc i with
    | storeLeaf s1 node v =>
      rw [hpc] at hown
      exact hown trivial
    | storeSeq s1 node v => exact hlast ⟨s1, node, v, hpc⟩
    | _ =>
      rw [hpc] at hst
      exact hst
  have hcache : (read (cached i) (key i) s.shared (s.pc i)).2 = s.shared.cache := by
    by_contra hne
    rcases (leads_read ..).store (.inr hne) with ⟨s1, node, v, he⟩ | hst
    · rw [he] at hown
      exact hown trivial
    · exact hbefore hst
  have hold : ∀ j, ¬(s.pc j).Storing := by
    intro j
    by_cases hj : j = i
    · subst hj
      exact hbefore
    have := hno j
    dsimp only at this
    rwa [update_of_ne hj] at this
  have hstamp : (match s.pc i with
      | .storeSeq _ _ _ => s.began i
      | _ => s.stamp) = s.stamp := by
    split
    · next s1 node v he => exact absurd ⟨s1, node, v, he⟩ hlast
    · rfl
  rw [hcache] at hne ⊢
  rw [hstamp]
  exact h.leaf hold hne

theorem Sound.step (h : Sound key seq s) (hr : ∀ i, Reading key seq s i) (hk : ∀ i, key i < 2 ^ 64)
    (hc : Careful s a) (hs : Radix.step key cached s a = some s') : Sound key seq s' := by
  cases a with
  | read i => exact h.read (hr i) (hk i) hc hs
  | begin op =>
    rw [step] at hs
    split at hs
    · cases hs
      refine ⟨h.excl, h.fits, fun hno hne => ?_⟩
      obtain ⟨h1, -, h3, -⟩ := h.leaf hno hne
      exact ⟨Nat.le_succ_of_le h1, fun _ => Nat.lt_succ_of_le h1, h3, fun hw => (by cases hw)⟩
    · cases hs
  | store =>
    rw [step] at hs
    split at hs
    · next hw =>
      cases hs
      refine ⟨h.excl, h.fits, fun hno hne => ?_⟩
      obtain ⟨h1, h2, h3, -⟩ := h.leaf hno hne
      exact ⟨h1, fun _ => h2 (by rw [hw]; exact some_ne_none _), h3, fun hw => (by cases hw)⟩
    · cases hs
  | finish =>
    rw [step] at hs
    split at hs
    · next hw =>
      cases hs
      refine ⟨h.excl, h.fits, fun hno hne => ?_⟩
      obtain ⟨h1, h2, h3, -⟩ := h.leaf hno hne
      have hlt := h2 (by rw [hw]; exact some_ne_none _)
      exact ⟨h1, absurd rfl, h3, fun _ hn => absurd hn (Nat.ne_of_lt hlt)⟩
    · cases hs

/-- **A stable result of the cached lookup is a value that the map had meanwhile**, if readers do
not overlap on the cached leaf. -/
theorem cached_lookup_is_current (hr : Reach key cached Careful seq s) (heven : seq % 2 = 0)
    (hseq : seq < 2 ^ 32) (hk : ∀ i, key i < 2 ^ 64) {i : ι} {v : ℕ}
    (hd : s.pc i = .done true v) : v ∈ s.held i := by
  have hinv : (∀ i, Reading key seq s i) ∧ Sound key seq s := by
    clear hd
    induction hr with
    | init hr hl =>
      refine ⟨fun i => ⟨fun s1 e => (by cases e), fun _ _ => trivial, fun v e => (by cases e)⟩,
        fun _ _ _ hst => hst.elim, fun _ => trivial, fun _ hne => absurd hl hne⟩
    | step hr ha hc hs ih =>
      obtain ⟨hread, hsound⟩ := ih
      have hbase := Base.reach heven hseq hr
      refine ⟨fun j => (hread j).step hbase (hk j) (fun s1 e hw hn => ?_) hs,
        hsound.step hread hk hc hs⟩
      exact hsound.hit hbase (hread j) (hk j) e hw hn
  exact (hinv.1 i).result v hd

/-! ## Runs of readers -/

/-- The readers of a list take one step each. -/
def reads (key : ι → ℕ) (cached : ι → Bool) (l : List ι) (s : Sys ι) : Sys ι :=
  l.foldl (fun s i => (step key cached s (.read i)).getD s) s

theorem Reach.reads (hr : Reach key cached care seq s) {l : List ι}
    (hc : ∀ n < l.length, ∀ i ∈ l[n]?, care (Radix.reads key cached (l.take n) s) (.read i)) :
    Reach key cached care seq (Radix.reads key cached l s) := by
  induction l generalizing s with
  | nil => exact hr
  | cons i l ih =>
    exact ih (hr.step (a := .read i) trivial (hc 0 (Nat.succ_pos _) i rfl) rfl)
      fun n hn => hc (n + 1) (Nat.succ_lt_succ hn)

theorem Reach.act (hr : Reach key cached care seq s) (ha : Allowed s a) (hc : care s a)
    (hs : (Radix.step key cached s a).isSome) :
    Reach key cached care seq ((Radix.step key cached s a).getD s) := by
  obtain ⟨s', h⟩ := Option.isSome_iff_exists.mp hs
  rw [h]
  exact hr.step ha hc h

instance (pc : Pc) : Decidable pc.Storing := by
  cases pc <;> dsimp only [Pc.Storing] <;> infer_instance

instance (pc : Pc) : Decidable pc.Loading := by
  cases pc <;> dsimp only [Pc.Loading] <;> infer_instance

instance [Fintype ι] (s : Sys ι) (i : ι) : Decidable (Careful s (.read i)) := by
  dsimp only [Careful]
  split <;> infer_instance

end

namespace TwoChunks

def leafTree : Tree :=
  (Tree.empty fun _ => Node.zero).run (insert (Tree.empty fun _ => Node.zero) 0 7 [1]).2

/-- The key `64` with the value `9` in another chunk. -/
def tree : Tree := leafTree.run (insert leafTree 64 9 [2, 3]).2

def map : ℕ → ℕ := update (update (fun _ => 0) 0 7) 64 9

theorem run_tree : Run tree map := by
  have h2 : (insert leafTree 64 9 [2, 3]).1 = .ok := by decide +kernel
  have hr : Run leafTree _ := run_first 7 (by decide) (by decide) (by decide +kernel)
  have howned : ∀ l b, Owned leafTree l b → l = 1 ∧ b = 1 := by
    intro l b ho
    induction ho with
    | root h => exact ⟨by decide +kernel, by decide +kernel⟩
    | child _ _ _ ih => exact absurd ih.1 (by omega)
  have hf2 : Fresh leafTree [2, 3] := by
    refine ⟨by decide, fun b hb l ho => ?_, by decide⟩
    obtain ⟨-, rfl⟩ := howned _ _ ho
    exact absurd hb (by decide)
  have hr2 := hr.insert 9 (by decide : 64 < 2 ^ 64) hf2
  rw [if_pos h2] at hr2
  exact hr2

/-- One reader of the first chunk and two of the second. -/
def key (i : Fin 3) : ℕ := if i = 0 then 0 else 64

def start : Sys (Fin 3) :=
  ⟨⟨tree, 0, ⟨0, 0, 0⟩⟩, none, map, 0, fun _ => 0, 0, fun _ => .start, fun _ => []⟩

/-- The first two readers find their leaves.  Then the first stores its chunk, the second all
three words, and the first the other two: the chunk of one with the leaf of the other. -/
def torn : List (Fin 3) :=
  List.replicate 7 0 ++ List.replicate 6 1 ++ [0, 1, 1, 1, 0, 0] ++ List.replicate 7 2

end TwoChunks

open TwoChunks in
/-- The value of the second key is replaced while the first reader is in the tree.  A lookup of
that key afterwards finds the new value. -/
theorem lookup_is_current_replaced : ∃ s, Reach key (fun _ => false) (fun _ _ => True) 0 s ∧
    s.ops = 1 ∧ (s.pc 0).first = some 0 ∧ s.pc 1 = .done true 5 ∧ 5 ∈ s.held 1 := by
  have hr : Reach key (fun _ => false) (fun _ _ => True) 0 start := .init run_tree rfl
  have hloads := hr.reads (l := [0, 0]) fun _ _ _ _ => trivial
  have hbegin := hloads.act (a := .begin (.replace 64 5))
    ⟨⟨by decide, by decide⟩, by decide⟩ trivial (by decide +kernel)
  have hstore := hbegin.act (a := .store) trivial trivial (by decide +kernel)
  have hfinish := hstore.act (a := .finish) trivial trivial (by decide +kernel)
  have hr' := hfinish.reads (l := List.replicate 6 1) fun _ _ _ _ => trivial
  refine ⟨_, hr', by decide +kernel, by decide +kernel, by decide +kernel, ?_⟩
  exact lookup_is_current hr' rfl (by decide) (by decide) rfl (by decide +kernel)

open TwoChunks in
/-- Two lookups of the second key, one after the other; the second takes the cached leaf. -/
theorem cached_lookup_is_current_in_turn : ∃ s, Reach key (fun _ => true) Careful 0 s ∧
    s.pc 2 = .done true 9 ∧ 9 ∈ s.held 2 := by
  have hr : Reach key (fun _ => true) Careful 0 start := .init run_tree rfl
  have hr' := hr.reads (l := List.replicate 10 1 ++ List.replicate 7 2) (by decide +kernel)
  have hd : (reads key (fun _ => true) (List.replicate 10 1 ++ List.replicate 7 2) start).pc 2 =
      .done true 9 := by
    decide +kernel
  exact ⟨_, hr', hd, cached_lookup_is_current hr' rfl (by decide) (by decide) hd⟩

open TwoChunks in
/-- **A torn cached leaf gives the value of another key**: the lookup of the second key is stable
with the value of the first. -/
theorem cached_lookup_foreign : ∃ s, Reach key (fun _ => true) (fun _ _ => True) 0 s ∧
    key 2 = 64 ∧ s.pc 2 = .done true 7 ∧ s.held 2 = [9] ∧ ∀ v, s.map v = map v := by
  have hr : Reach key (fun _ => true) (fun _ _ => True) 0 start := .init run_tree rfl
  have hr' := hr.reads (l := torn) fun _ _ _ _ => trivial
  exact ⟨_, hr', rfl, by decide +kernel, by decide +kernel, fun v => rfl⟩

end AvoryOS.Radix
