import Mathlib.Data.List.FinRange
import Mathlib.Tactic.Common

/-!
# The dentry cache

The cache is a table of `4096` buckets of four ways.  An entry says which vnode a
directory has under a name, or that it has none; the bucket of an entry is chosen by
a hash of the directory and the name.  A directory is recognised by its vnode or, if
it has an inode number, by inode and device, since disk filesystems make a new vnode at
every lookup.

A critical section of a bucket is one function here.  The sequence counter that guards
the scan without the lock is left out with it, and an entry keeps neither the hashes nor
the inode and device of its directory, which are computed again.

A name longer than `127` bytes is cut by `componentHash` and its caller, but not by
`bucketInvalidate`, which gives up on it.

## Main definitions

* `Vnodes` — what never changes of a vnode; `Vnodes.ident` is what tells directories apart.
* `Entry.holds` — the comparison of an entry with a directory and a name.
* `lookup`, `insert`, `bucketInvalidate`, `flush` — the operations.
* `Holds V c d n ch` — the cache says that the directory `d` has `ch` under `n`.
-/

namespace AvoryOS.Vfs

open Function List Option Bool

/-- A name or a path, without its terminator. -/
abbrev Name := List UInt8

abbrev Node := ℕ

/-- What tells one directory from another. -/
inductive Ident
  | object (inode : UInt32) (device : ℕ)
  | vnode (n : Node)
  deriving DecidableEq

/-- The attributes of vnodes that the caches read. -/
structure Vnodes where
  inode : Node → UInt32
  device : Node → ℕ
  nocache : Node → Bool

variable (V : Vnodes)

/-- A vnode without an inode number is only the same as itself. -/
def Vnodes.ident (n : Node) : Ident :=
  if V.inode n = 0 then .vnode n else .object (V.inode n) (V.device n)

/-! ## Names -/

def componentLen (name : Name) : ℕ := min name.length 127

def componentHash (name : Name) : UInt32 :=
  (name.take 127).foldl (fun hash c => (hash ^^^ c.toUInt32) * 16777619) 2166136261

/-- Bytes as a number, the first one lowest. -/
def pack : List UInt8 → ℕ
  | [] => 0
  | c :: cs => c.toNat + 256 * pack cs

def namePrefix (name : Name) : ℕ := pack ((name.take 127).take 8)

def parentKey (parent : Node) : UInt64 :=
  if V.inode parent ≠ 0 then
    ((V.inode parent).toUInt64 * 2654435761) ^^^ UInt64.ofNat (V.device parent)
  else UInt64.ofNat parent >>> 4

def hashCombine (parent : Node) (compHash : UInt32) : UInt32 :=
  let h := ((parentKey V parent ^^^ 1469598103934665603) ^^^ compHash.toUInt64) * 1099511628211
  (h ^^^ (h >>> 32)).toUInt32

def slotOf (parent : Node) (name : Name) : ℕ :=
  (hashCombine V parent (componentHash name)).toNat % 4096

theorem pack_inj {a b : List UInt8} (hl : a.length = b.length) (h : pack a = pack b) : a = b := by
  induction a generalizing b with
  | nil => exact (length_eq_zero_iff.mp hl.symm).symm
  | cons x a ih =>
    cases b with
    | nil => exact absurd hl (Nat.succ_ne_zero _)
    | cons y b =>
      have hx := x.toNat_lt
      have hy := y.toNat_lt
      simp only [pack] at h
      have hxy : x = y := UInt8.toNat_inj.mp (by omega)
      rw [hxy, ih (Nat.succ.inj hl) (by omega)]

/-! ## Entries -/

structure Entry where
  parent : Node
  child : Option Node
  name : Name
  lastUsed : UInt32
  /-- The buffer has `128` bytes. -/
  short : name.length < 128
  deriving DecidableEq

def parentMatch (a b : Node) : Bool :=
  a == b || (V.inode b != 0 && V.inode a == V.inode b && V.device a == V.device b)

/-- The comparison every operation makes: hashes, length, the first eight bytes, the
directory, and the bytes after the eighth. -/
def Entry.holds (e : Entry) (parent : Node) (name : Name) : Bool :=
  hashCombine V e.parent (componentHash e.name) == hashCombine V parent (componentHash name) &&
    componentHash e.name == componentHash name &&
    e.name.length == componentLen name && namePrefix e.name == namePrefix name &&
    parentMatch V e.parent parent &&
    (decide (componentLen name ≤ 8) || e.name.drop 8 == (name.drop 8).take (componentLen name - 8))

variable {V}

variable {a : Node}

theorem parentMatch_iff {b : Node} : parentMatch V a b = true ↔ V.ident a = V.ident b := by
  simp only [parentMatch, or_eq_true, beq_iff_eq, and_eq_true, bne_iff_ne, Vnodes.ident]
  constructor
  · rintro (rfl | ⟨⟨h0, hi⟩, hd⟩)
    · rfl
    · rw [if_neg h0, if_neg (hi ▸ h0), hi, hd]
  · by_cases ha : V.inode a = 0 <;> by_cases hb : V.inode b = 0 <;> simp_all

theorem hashCombine_congr {b : Node} (h : V.ident a = V.ident b) (comp : UInt32) :
    hashCombine V a comp = hashCombine V b comp := by
  rw [← parentMatch_iff, parentMatch, or_eq_true, beq_iff_eq] at h
  obtain rfl | h := h
  · rfl
  simp only [and_eq_true, bne_iff_ne, beq_iff_eq] at h
  have hkey : parentKey V a = parentKey V b := by
    rw [parentKey, parentKey, h.1.2, h.2, if_pos h.1.1, if_pos h.1.1]
  rw [hashCombine, hashCombine, hkey]

theorem slotOf_congr {b : Node} (h : V.ident a = V.ident b) (name : Name) :
    slotOf V a name = slotOf V b name := by rw [slotOf, hashCombine_congr h, slotOf]

theorem componentHash_take (name : Name) : componentHash (name.take 127) = componentHash name := by
  rw [componentHash, componentHash, take_take, Nat.min_self]

variable {e : Entry}

/-- An entry is that of a directory and a name: the same directory, and the same first `127`
bytes. -/
theorem Entry.holds_iff {parent : Node} {name : Name} :
    e.holds V parent name = true ↔ V.ident e.parent = V.ident parent ∧ e.name = name.take 127 := by
  have hcut : e.name.take 127 = e.name := take_of_length_le (Nat.le_of_lt_succ e.short)
  simp only [Entry.holds, and_eq_true, beq_iff_eq, parentMatch_iff, or_eq_true, decide_eq_true_eq]
  constructor
  swap
  · rintro ⟨hpar, hname⟩
    have hlen : e.name.length = componentLen name := by
      rw [hname, length_take, componentLen, Nat.min_comm]
    have hhash : componentHash e.name = componentHash name := by rw [hname, componentHash_take]
    refine ⟨⟨⟨⟨⟨by rw [hhash, hashCombine_congr hpar], hhash⟩, hlen⟩, ?_⟩, hpar⟩, ?_⟩
    · rw [namePrefix, namePrefix, hcut, hname]
    right
    rw [hname, drop_take, componentLen]
    rcases Nat.le_total name.length 127 with h | h
    · rw [Nat.min_eq_left h, take_of_length_le (by simp; omega), take_of_length_le (by simp)]
    · rw [Nat.min_eq_right h]
  rintro ⟨⟨⟨⟨⟨-, -⟩, hlen⟩, hpre⟩, hpar⟩, hrest⟩
  refine ⟨hpar, ?_⟩
  have hlen' : e.name.length = (name.take 127).length := by
    rw [hlen, length_take, componentLen, Nat.min_comm]
  have h8 : e.name.take 8 = (name.take 127).take 8 := by
    refine pack_inj (by rw [length_take, length_take, hlen']) ?_
    rw [← hcut]
    exact hpre
  rw [← take_append_drop 8 e.name, ← take_append_drop 8 (name.take 127)]
  congr 1
  obtain hle | hrest := hrest
  · rw [drop_of_length_le (hlen ▸ hle), drop_of_length_le (hlen' ▸ hlen ▸ hle)]
  rw [hrest, drop_take, componentLen]
  rcases Nat.le_total name.length 127 with h | h
  · rw [Nat.min_eq_left h, take_of_length_le (by simp), take_of_length_le (by simp; omega)]
  · rw [Nat.min_eq_right h]

/-! ## Buckets -/

structure Bucket where
  entries : Fin 4 → Option Entry
  lruSeq : UInt32

abbrev Cache := ℕ → Bucket

variable (V)

/-- The first way that holds the directory and the name. -/
def Bucket.find (b : Bucket) (parent : Node) (name : Name) : Option (Fin 4) :=
  (List.finRange 4).find? fun i => (b.entries i).any (·.holds V parent name)

def Bucket.set (b : Bucket) (i : Fin 4) (e : Option Entry) : Bucket :=
  { b with entries := update b.entries i e }

def Bucket.touch (b : Bucket) (i : Fin 4) (seq : UInt32) : Bucket :=
  b.set i ((b.entries i).map fun e => { e with lastUsed := seq })

/-- The first empty way, or else the one used longest ago. -/
def Bucket.victim (b : Bucket) : Fin 4 :=
  match (List.finRange 4).find? fun i => (b.entries i).isNone with
  | some i => i
  | none =>
    ((List.finRange 4).foldl (fun (oldest, victim) i =>
      match b.entries i with
      | some e => if e.lastUsed < oldest then (e.lastUsed, i) else (oldest, victim)
      | none => (oldest, victim)) ((0xFFFFFFFF : UInt32), (⟨0, by decide⟩ : Fin 4))).2

def Bucket.tick (b : Bucket) : Bucket := { b with lruSeq := b.lruSeq + 1 }

/-- A new entry takes the place of the victim. -/
def Bucket.fill (b : Bucket) (parent : Node) (name : Name) (child : Option Node) : Bucket :=
  b.set b.victim (some ⟨parent, child, name.take 127, b.lruSeq,
    Nat.lt_succ_of_le (length_take_le _ _)⟩)

def Bucket.drop (b : Bucket) (parent : Node) (name : Name) : Bucket :=
  { b with entries := fun i => (b.entries i).filter fun e => e.holds V parent name == false }

/-- `some none` is a negative entry, `none` a miss. -/
def lookup (c : Cache) (parent : Node) (name : Name) : Option (Option Node) × Cache :=
  if V.nocache parent then (none, c)
  else
    let slot := slotOf V parent name
    match (c slot).find V parent name with
    | none => (none, c)
    | some i =>
      (((c slot).entries i).map (·.child), update c slot ((c slot).touch i (c slot).lruSeq))

/-- An entry that is there already stays as it is. -/
def insert (c : Cache) (parent : Node) (name : Name) (child : Option Node) : Cache :=
  if V.nocache parent then c
  else
    let slot := slotOf V parent name
    let b := (c slot).tick
    match b.find V parent name with
    | some i => update c slot (b.touch i b.lruSeq)
    | none => update c slot (b.fill parent name child)

def bucketInvalidate (c : Cache) (parent : Node) (name : Name) : Cache :=
  if 128 ≤ name.length then c
  else
    let slot := slotOf V parent name
    update c slot ((c slot).drop V parent name)

/-- Everything is dropped. -/
def flush (c : Cache) : Cache := fun slot => { c slot with entries := fun _ => none }

/-! ## What a cache says -/

/-- Some entry says that `d` has `ch` under `n`. -/
def Holds (c : Cache) (d : Ident) (n : Name) (ch : Option Node) : Prop :=
  ∃ slot i e, (c slot).entries i = some e ∧ V.ident e.parent = d ∧ e.name = n ∧ e.child = ch

/-- Every entry lies in the bucket of its hash. -/
def Placed (c : Cache) : Prop :=
  ∀ slot i e, (c slot).entries i = some e → slot = slotOf V e.parent e.name

variable {V} {c : Cache} {parent : Node} {name : Name} {child : Option Node}

variable {b : Bucket} {i j : Fin 4}

theorem touch_entries {seq : UInt32} (h : (b.touch i seq).entries j = some e) :
    ∃ e', b.entries j = some e' ∧ e.parent = e'.parent ∧ e.name = e'.name ∧ e.child = e'.child := by
  by_cases hj : j = i
  · subst hj
    simp only [Bucket.touch, Bucket.set, update_self, map_eq_some_iff] at h
    obtain ⟨e', he', rfl⟩ := h
    exact ⟨e', he', rfl, rfl, rfl⟩
  · simp only [Bucket.touch, Bucket.set, update_of_ne hj] at h
    exact ⟨e, h, rfl, rfl, rfl⟩

theorem fill_entries (h : (b.fill parent name child).entries j = some e) :
    b.entries j = some e ∨ (e.parent = parent ∧ e.name = name.take 127 ∧ e.child = child) := by
  by_cases hj : j = b.victim
  · subst hj
    simp only [Bucket.fill, Bucket.set, update_self] at h
    cases h
    exact .inr ⟨rfl, rfl, rfl⟩
  · simp only [Bucket.fill, Bucket.set, update_of_ne hj] at h
    exact .inl h

theorem drop_entries (h : (b.drop V parent name).entries j = some e) :
    b.entries j = some e ∧ e.holds V parent name = false := by
  simp only [Bucket.drop, filter_eq_some_iff] at h
  exact ⟨h.1, beq_iff_eq.mp h.2⟩

theorem entries_update {slot s : ℕ} (h : (update c slot b s).entries i = some e) :
    (s = slot ∧ b.entries i = some e) ∨ (c s).entries i = some e := by
  by_cases hs : s = slot
  · subst hs
    exact .inl ⟨rfl, by rwa [update_self] at h⟩
  · exact .inr (by rwa [update_of_ne hs] at h)

theorem touched {slot : ℕ} {seq : UInt32} (hb : b.entries = (c slot).entries) (hp : Placed V c) :
    Placed V (update c slot (b.touch i seq)) ∧
      ∀ d n ch, Holds V (update c slot (b.touch i seq)) d n ch → Holds V c d n ch := by
  have old : ∀ s j e, (update c slot (b.touch i seq) s).entries j = some e →
      ∃ e', (c s).entries j = some e' ∧ e.parent = e'.parent ∧ e.name = e'.name ∧
        e.child = e'.child := by
    intro s j e h
    obtain ⟨hs, h⟩ | h := entries_update h
    · rw [hs, ← hb]
      exact touch_entries h
    · exact ⟨e, h, rfl, rfl, rfl⟩
  refine ⟨fun s j e h => ?_, fun d n ch => ?_⟩
  · obtain ⟨e', he', h1, h2, -⟩ := old s j e h
    rw [h1, h2]
    exact hp s j e' he'
  · rintro ⟨s, j, e, h, rfl, rfl, rfl⟩
    obtain ⟨e', he', h1, h2, h3⟩ := old s j e h
    exact ⟨s, j, e', he', by rw [h1], h2.symm, h3.symm⟩

theorem lookup_spec (hp : Placed V c) (parent : Node) (name : Name) :
    Placed V (lookup V c parent name).2 ∧
      ∀ d n ch, Holds V (lookup V c parent name).2 d n ch → Holds V c d n ch := by
  simp only [lookup]
  split
  · exact ⟨hp, fun _ _ _ h => h⟩
  split
  · exact ⟨hp, fun _ _ _ h => h⟩
  · exact touched rfl hp

theorem insert_spec (hp : Placed V c) (parent : Node) (name : Name) (child : Option Node) :
    Placed V (insert V c parent name child) ∧
      ∀ d n ch, Holds V (insert V c parent name child) d n ch →
        Holds V c d n ch ∨ (d = V.ident parent ∧ n = name.take 127 ∧ ch = child) := by
  simp only [insert]
  split
  · exact ⟨hp, fun _ _ _ h => .inl h⟩
  split
  · obtain ⟨h1, h2⟩ := touched (b := (c (slotOf V parent name)).tick) rfl hp
    exact ⟨h1, fun d n ch h => .inl (h2 d n ch h)⟩
  have old : ∀ s j e, (update c (slotOf V parent name)
      ((c (slotOf V parent name)).tick.fill parent name child) s).entries j = some e →
      (c s).entries j = some e ∨ (s = slotOf V parent name ∧ e.parent = parent ∧
        e.name = name.take 127 ∧ e.child = child) := by
    intro s j e h
    obtain ⟨hs, h⟩ | h := entries_update h
    · obtain h | h := fill_entries h
      · exact .inl (hs ▸ h)
      · exact .inr ⟨hs, h⟩
    · exact .inl h
  refine ⟨fun s j e h => ?_, fun d n ch => ?_⟩
  · obtain h | ⟨rfl, h1, h2, -⟩ := old s j e h
    · exact hp s j e h
    · rw [h1, h2, slotOf, slotOf, componentHash_take]
  rintro ⟨s, j, e, h, rfl, rfl, rfl⟩
  obtain h | ⟨-, h1, h2, h3⟩ := old s j e h
  · exact .inl ⟨s, j, e, h, rfl, rfl, rfl⟩
  · exact .inr ⟨by rw [h1], h2, h3⟩

/-- The entry of a name that fits is gone, and no other is added. -/
theorem bucketInvalidate_spec (hp : Placed V c) (parent : Node) (name : Name) :
    Placed V (bucketInvalidate V c parent name) ∧
      ∀ d n ch, Holds V (bucketInvalidate V c parent name) d n ch → Holds V c d n ch ∧
        (name.length < 128 → ¬(d = V.ident parent ∧ n = name)) := by
  simp only [bucketInvalidate]
  split
  · next hl => exact ⟨hp, fun _ _ _ h => ⟨h, fun h' => absurd h' (Nat.not_lt.mpr hl)⟩⟩
  next hl =>
  have hcut : name.take 127 = name := take_of_length_le (by omega)
  have old : ∀ s j e, (update c (slotOf V parent name)
      ((c (slotOf V parent name)).drop V parent name) s).entries j = some e →
      (c s).entries j = some e ∧ (s = slotOf V parent name → e.holds V parent name = false) := by
    intro s j e h
    by_cases hs : s = slotOf V parent name
    · subst hs
      rw [update_self] at h
      exact ⟨(drop_entries h).1, fun _ => (drop_entries h).2⟩
    · rw [update_of_ne hs] at h
      exact ⟨h, fun h' => absurd h' hs⟩
  refine ⟨fun s j e h => hp s j e (old s j e h).1, fun d n ch => ?_⟩
  rintro ⟨s, j, e, h, rfl, rfl, rfl⟩
  obtain ⟨he, hno⟩ := old s j e h
  refine ⟨⟨s, j, e, he, rfl, rfl, rfl⟩, fun _ => ?_⟩
  rintro ⟨hpar, hname⟩
  have hslot : s = slotOf V parent name := by rw [hp s j e he, slotOf_congr hpar, hname]
  have := Entry.holds_iff.mpr ⟨hpar, hname.trans hcut.symm⟩
  rw [hno hslot] at this
  exact absurd this (by decide)

end AvoryOS.Vfs
