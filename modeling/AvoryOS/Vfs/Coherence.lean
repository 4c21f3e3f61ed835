import AvoryOS.Vfs.Dentry
import Mathlib.Logic.Function.Basic

/-!
# The dentry cache under concurrent changes of a directory

Threads look names up, create, unlink and rename them in the directories of one
filesystem.  A step is a critical section: a probe of the cache, an answer of the
filesystem, an insertion, an invalidation, or a change of the filesystem.  `Task` is
what a thread has still to do, in the order of the source: `vfs_create` invalidates after
its change, `vfs_unlink` before it, `vfs_rename` before and after.

A lookup stores its answer in a step of its own.  If the name was changed after the
filesystem answered, the entry is wrong, and it stays if no invalidation of the name comes
after it.  `Timely` says that this does not happen; `dentries_coherent` is the result.

The versions are not part of the code.  `version` counts the changes of a name, and
`settled` is the newest change whose operation has made its last invalidation of the name.
-/

namespace AvoryOS.Vfs

open Function

inductive Task
  | done
  | probe (p : Node) (n : Name) (k : Task)
  | fetch (p : Node) (n : Name) (k : Task)
  /-- The answer, and the version of the name it was given at. -/
  | insert (p : Node) (n : Name) (ans : Option Node) (seen : ℕ) (k : Task)
  | inval (p : Node) (n : Name) (k : Task)
  /-- An invalidation after the change that made the version. -/
  | settle (p : Node) (n : Name) (version : ℕ) (k : Task)
  | create (p : Node) (n : Name) (obj : Ident)
  | unlink (p : Node) (n : Name)
  | rename (p : Node) (old new : Name)
  deriving DecidableEq

/-- `vfs_finddir`, and what follows it. -/
def finddir (p : Node) (n : Name) (k : Task) : Task := .probe p n k

def vfsCreate (p : Node) (n : Name) (obj : Ident) : Task := .create p n obj

def vfsUnlink (p : Node) (n : Name) : Task := finddir p n (.inval p n (.unlink p n))

def vfsRename (p : Node) (old new : Name) : Task :=
  finddir p old (finddir p new (.inval p old (.inval p new (.rename p old new))))

abbrev Place := Ident × Name

structure State where
  cache : Cache
  tree : Place → Option Ident
  version : Place → ℕ
  settled : Place → ℕ
  threads : ℕ → Task

/-- What the filesystem and the mount table decide: whether a change succeeds, and the vnode
it answers with. -/
structure Choice where
  ok : Bool
  ans : Option Node

variable (V : Vnodes) (follow : Node → Node)

/-- The name has no object, or the vnode is the top of the mounts on a vnode of the object. -/
def Answer (tree : Place → Option Ident) (pl : Place) : Option Node → Prop
  | none => tree pl = none
  | some x => ∃ h, tree pl = some (V.ident h) ∧ V.ident x = V.ident (follow h)

/-- The filesystem after a rename: the object of the old name is the one of the new. -/
def moved (tree : Place → Option Ident) (d : Ident) (old new : Name) : Place → Option Ident :=
  update (update tree (d, old) none) (d, new) (tree (d, old))

/-- One step of a thread.  A failed change ends the operation. -/
def next (s : State) (t : ℕ) (c : Choice) : State :=
  let go (s : State) (k : Task) : State := { s with threads := update s.threads t k }
  match s.threads t with
  | .done => s
  | .probe p n k =>
    let s' := { s with cache := (lookup V s.cache p n).2 }
    match (lookup V s.cache p n).1 with
    | some _ => go s' k
    | none => go s' (.fetch p n k)
  | .fetch p n k => go s (.insert p n c.ans (s.version (V.ident p, n)) k)
  | .insert p n ans _ k => go { s with cache := insert V s.cache p n ans } k
  | .inval p n k => go { s with cache := bucketInvalidate V s.cache p n } k
  | .settle p n v k =>
    let pl := (V.ident p, n)
    go { s with
      cache := bucketInvalidate V s.cache p n
      settled := update s.settled pl (max (s.settled pl) v) } k
  | .create p n obj =>
    let pl := (V.ident p, n)
    if c.ok ∧ s.tree pl = none then
      go { s with
        tree := update s.tree pl (some obj)
        version := update s.version pl (s.version pl + 1) }
        (.settle p n (s.version pl + 1) .done)
    else go s .done
  | .unlink p n =>
    let pl := (V.ident p, n)
    if c.ok ∧ s.tree pl ≠ none then
      go { s with
        tree := update s.tree pl none
        version := update s.version pl (s.version pl + 1)
        settled := update s.settled pl (s.version pl + 1) } .done
    else go s .done
  | .rename p old new =>
    let d := V.ident p
    if c.ok ∧ s.tree (d, old) ≠ none then
      let version := update (update s.version (d, old) (s.version (d, old) + 1))
        (d, new) (s.version (d, new) + 1)
      go { s with
        tree := moved s.tree d old new
        version }
        (.settle p old (version (d, old)) (.settle p new (version (d, new)) .done))
    else go s .done

/-- The filesystem answers with what it has. -/
def Honest (s : State) (t : ℕ) (c : Choice) : Prop :=
  match s.threads t with
  | .fetch p n _ => Answer V follow s.tree (V.ident p, n) c.ans
  | _ => True

/-- A stored answer is not older than a change that nobody will invalidate after, and nothing
is cached under a name when `unlink` removes it. -/
def Timely (s : State) (t : ℕ) (c : Choice) : Prop :=
  match s.threads t with
  | .insert p n _ seen _ => s.settled (V.ident p, n) ≤ seen
  | .unlink p n =>
    c.ok ∧ s.tree (V.ident p, n) ≠ none → ∀ ch, ¬Holds V s.cache (V.ident p) n ch
  | _ => True

def Coherent (s : State) : Prop :=
  ∀ d n ch, Holds V s.cache d n ch → Answer V follow s.tree (d, n) ch

/-- The thread will invalidate the name after a change that made the version. -/
def Task.Awaits (pl : Place) (v : ℕ) : Task → Prop
  | .settle p n w k => ((V.ident p, n) = pl ∧ w = v) ∨ k.Awaits pl v
  | _ => False

/-- All names are short enough for the cache. -/
def Task.Short : Task → Prop
  | .done => True
  | .probe _ n k | .fetch _ n k | .insert _ n _ _ k | .inval _ n k | .settle _ n _ k =>
    n.length < 128 ∧ k.Short
  | .create _ n _ | .unlink _ n => n.length < 128
  | .rename _ old new => old.length < 128 ∧ new.length < 128

/-- An answer that is on its way is right unless the name was changed since. -/
def Task.Sound (tree : Place → Option Ident) (version : Place → ℕ) : Task → Prop
  | .probe _ _ k | .fetch _ _ k | .inval _ _ k => k.Sound tree version
  | .insert p n ans seen k =>
    (seen ≤ version (V.ident p, n) ∧
      (seen = version (V.ident p, n) → Answer V follow tree (V.ident p, n) ans)) ∧
      k.Sound tree version
  | .settle p n v k => v ≤ version (V.ident p, n) ∧ k.Sound tree version
  | .done | .create .. | .unlink .. | .rename .. => True

/-- Somebody will invalidate the name after its newest change. -/
def Awaited (s : State) (pl : Place) : Prop :=
  ∃ t, (s.threads t).Awaits V pl (s.version pl)

/-- A wrong entry will be invalidated, and the newest change of a name has been invalidated
after or will be. -/
structure Inv (s : State) : Prop where
  placed : Placed V s.cache
  entries : ∀ d n ch, Holds V s.cache d n ch → Answer V follow s.tree (d, n) ch ∨ Awaited V s (d, n)
  sound : ∀ t, (s.threads t).Sound V follow s.tree s.version
  short : ∀ t, (s.threads t).Short
  settled_le : ∀ pl, s.settled pl ≤ s.version pl
  newest : ∀ pl, s.settled pl = s.version pl ∨ Awaited V s pl

variable {V follow} {s : State} {t : ℕ} {k : Task}

variable {tree : Place → Option Ident} {pl : Place}

variable {tree' : Place → Option Ident} {ch : Option Node}

theorem Answer.congr
    (h : Answer V follow tree pl ch) (he : tree' pl = tree pl) : Answer V follow tree' pl ch := by
  cases ch with
  | none => exact he.trans h
  | some x =>
    obtain ⟨y, h1, h2⟩ := h
    exact ⟨y, he.trans h1, h2⟩

theorem Answer.isSome (h : Answer V follow tree pl ch) : ch.isSome = (tree pl).isSome := by
  cases ch with
  | none => rw [show tree pl = none from h]; rfl
  | some x =>
    obtain ⟨y, h1, -⟩ := h
    rw [h1]
    rfl

variable {f : ℕ → Task}

/-- A predicate of all threads after one of them has moved. -/
theorem forall_update {P : Task → Prop} (hk : P k) (h : ∀ u, P (f u)) (u : ℕ) :
    P (update f t k u) := by
  by_cases hu : u = t
  · rw [hu, update_self]
    exact hk
  · rw [update_of_ne hu]
    exact h u

/-- What somebody awaits is still awaited after a thread has moved, if it awaits as much. -/
theorem awaits_update {v : ℕ}
    (hk : (f t).Awaits V pl v → k.Awaits V pl v) (h : ∃ u, (f u).Awaits V pl v) :
    ∃ u, (update f t k u).Awaits V pl v := by
  obtain ⟨u, hu⟩ := h
  by_cases hut : u = t
  · exact ⟨t, by rw [update_self]; exact hk (hut ▸ hu)⟩
  · exact ⟨u, by rwa [update_of_ne hut]⟩

/-- A step that changes nothing but the cache: it adds only entries that are right or will be
invalidated. -/
theorem Inv.move (h : Inv V follow s) {c : Cache} (hp : Placed V c)
    (hc : ∀ d n ch, Holds V c d n ch → Holds V s.cache d n ch ∨
      Answer V follow s.tree (d, n) ch ∨ Awaited V s (d, n))
    (ha : ∀ pl v, (s.threads t).Awaits V pl v → k.Awaits V pl v)
    (hs : k.Sound V follow s.tree s.version) (hn : k.Short) :
    Inv V follow { s with cache := c, threads := update s.threads t k } where
  placed := hp
  entries d n ch hh := by
    obtain hh | hr | hw := hc d n ch hh
    · exact (h.entries d n ch hh).imp_right (awaits_update (ha _ _))
    · exact .inl hr
    · exact .inr (awaits_update (ha _ _) hw)
  sound := forall_update hs h.sound
  short := forall_update hn h.short
  settled_le := h.settled_le
  newest pl := (h.newest pl).imp_right (awaits_update (ha _ _))

/-- The newer a name, the less is asked of the answers for it. -/
theorem Task.Sound.change {version version' : Place → ℕ}
    (hc : ∀ pl, (tree' pl = tree pl ∧ version' pl = version pl) ∨ version pl < version' pl)
    (h : k.Sound V follow tree version) : k.Sound V follow tree' version' := by
  induction k with
  | done | create | unlink | rename => trivial
  | probe p n k ih | fetch p n k ih | inval p n k ih => exact ih h
  | insert p n ans seen k ih =>
    obtain ⟨⟨hle, hans⟩, hk⟩ := h
    refine ⟨?_, ih hk⟩
    obtain ⟨ht, hv⟩ | hlt := hc (V.ident p, n)
    · exact ⟨hv ▸ hle, fun e => (hans (hv ▸ e)).congr ht⟩
    · exact ⟨by omega, fun e => absurd e (by omega)⟩
  | settle p n v k ih =>
    refine ⟨?_, ih h.2⟩
    obtain ⟨-, hv⟩ | hlt := hc (V.ident p, n)
    · exact hv ▸ h.1
    · exact h.1.trans hlt.le

/-- A change of the filesystem: every name that is changed will be invalidated, or is not
cached and counts as settled. -/
theorem Inv.change (h : Inv V follow s) {version settled : Place → ℕ}
    (hc : ∀ pl, (tree pl = s.tree pl ∧ version pl = s.version pl ∧ settled pl = s.settled pl) ∨
      (s.version pl < version pl ∧ settled pl ≤ version pl ∧
        (k.Awaits V pl (version pl) ∨
          (settled pl = version pl ∧ ∀ ch, ¬Holds V s.cache pl.1 pl.2 ch))))
    (ha : ∀ pl v, ¬(s.threads t).Awaits V pl v)
    (hs : k.Sound V follow tree version) (hn : k.Short) :
    Inv V follow { s with tree, version, settled, threads := update s.threads t k } where
  placed := h.placed
  entries d n ch hh := by
    obtain ⟨ht, hv, -⟩ | ⟨-, -, hw | ⟨-, hno⟩⟩ := hc (d, n)
    · refine (h.entries d n ch hh).imp (fun hr => hr.congr ht) fun hw => ?_
      simp only [Awaited, hv]
      exact awaits_update (fun e => absurd e (ha _ _)) hw
    · exact .inr ⟨t, by simpa only [update_self] using hw⟩
    · exact absurd hh (hno ch)
  sound := forall_update hs fun u => (h.sound u).change fun pl => by
    obtain ⟨ht, hv, -⟩ | ⟨hlt, -⟩ := hc pl
    · exact .inl ⟨ht, hv⟩
    · exact .inr hlt
  short := forall_update hn h.short
  settled_le pl := by
    obtain ⟨-, hv, hst⟩ | ⟨-, hle, -⟩ := hc pl
    · simp only [hst, hv]
      exact h.settled_le pl
    · exact hle
  newest pl := by
    obtain ⟨-, hv, hst⟩ | ⟨-, -, hw | ⟨hst, -⟩⟩ := hc pl
    · refine (h.newest pl).imp (fun e => by simp [hst, hv, e]) fun hw => ?_
      simp only [Awaited, hv]
      exact awaits_update (fun e => absurd e (ha _ _)) hw
    · exact .inr ⟨t, by simpa only [update_self] using hw⟩
    · exact .inl hst

variable {n : Name}

theorem Inv.settle (h : Inv V follow s) {p : Node} {v : ℕ}
    (ht : s.threads t = .settle p n v k) : Inv V follow { s with
      cache := bucketInvalidate V s.cache p n
      settled := update s.settled (V.ident p, n) (max (s.settled (V.ident p, n)) v)
      threads := update s.threads t k } := by
  obtain ⟨hv, hk⟩ : v ≤ s.version (V.ident p, n) ∧ k.Sound V follow s.tree s.version := by
    have := h.sound t
    rwa [ht] at this
  obtain ⟨hn, hks⟩ : n.length < 128 ∧ k.Short := by
    have := h.short t
    rwa [ht] at this
  obtain ⟨hp, hsub⟩ := bucketInvalidate_spec h.placed p n
  -- the thread awaits everything it awaited, this name apart
  have hother : ∀ pl, pl ≠ (V.ident p, n) → ∀ w, (s.threads t).Awaits V pl w → k.Awaits V pl w := by
    intro pl hne w hw
    rw [ht] at hw
    exact hw.resolve_left fun e => hne e.1.symm
  refine ⟨hp, fun d m ch hh => ?_, forall_update hk h.sound, forall_update hks h.short,
    fun pl => ?_, fun pl => ?_⟩
  · obtain ⟨hh, hne⟩ := hsub d m ch hh
    have hne' : (d, m) ≠ (V.ident p, n) := fun e => hne hn (Prod.mk.inj e)
    exact (h.entries d m ch hh).imp_right (awaits_update (hother _ hne' _))
  · by_cases hpl : pl = (V.ident p, n)
    · subst hpl
      simp only [update_self]
      exact Nat.max_le.mpr ⟨h.settled_le _, hv⟩
    · simp only [update_of_ne hpl]
      exact h.settled_le pl
  by_cases hpl : pl = (V.ident p, n)
  swap
  · simp only [update_of_ne hpl]
    exact (h.newest pl).imp_right (awaits_update (hother _ hpl _))
  subst hpl
  simp only [update_self]
  have hle := h.settled_le (V.ident p, n)
  obtain he | ⟨u, hu⟩ := h.newest (V.ident p, n)
  · exact .inl (by omega)
  by_cases hvv : v = s.version (V.ident p, n)
  · exact .inl (by omega)
  refine .inr (awaits_update (fun hw => ?_) ⟨u, hu⟩)
  rw [ht] at hw
  exact hw.resolve_left fun e => hvv e.2

/-! ## Runs -/

variable {c : Choice}

theorem take_short (h : n.length < 128) : n.take 127 = n :=
  List.take_of_length_le (by omega)

theorem Inv.next (h : Inv V follow s) (hc : Honest V follow s t c)
    (ht : Timely V s t c) : Inv V follow (next V s t c) := by
  have hs := h.sound t
  have hn := h.short t
  rw [Honest] at hc
  rw [Timely] at ht
  rw [Vfs.next]
  -- the cases are those of the task of the thread
  cases he : s.threads t with
  | done => exact h
  | probe p n k =>
    rw [he] at hs hn
    obtain ⟨hp, hsub⟩ := lookup_spec h.placed p n
    simp only
    split
    · exact h.move hp (fun d m ch hh => .inl (hsub d m ch hh)) (by simp [he, Task.Awaits]) hs hn.2
    · exact h.move hp (fun d m ch hh => .inl (hsub d m ch hh)) (by simp [he, Task.Awaits]) hs hn
  | fetch p n k =>
    rw [he] at hs hn hc
    exact h.move h.placed (fun d m ch hh => .inl hh) (by simp [he, Task.Awaits])
      ⟨⟨le_rfl, fun _ => hc⟩, hs⟩ hn
  | insert p n ans seen k =>
    rw [he] at hs hn ht
    obtain ⟨hp, hsub⟩ := insert_spec h.placed p n ans
    refine h.move hp (fun d m ch hh => ?_) (by simp [he, Task.Awaits]) hs.2 hn.2
    obtain hh | ⟨rfl, rfl, rfl⟩ := hsub d m ch hh
    · exact .inl hh
    rw [take_short hn.1]
    -- the newest change is not settled if the answer is older
    by_cases hseen : seen = s.version (V.ident p, n)
    · exact .inr (.inl (hs.1.2 hseen))
    have hle := hs.1.1
    exact .inr (.inr ((h.newest _).resolve_left (by omega)))
  | inval p n k =>
    rw [he] at hs hn
    obtain ⟨hp, hsub⟩ := bucketInvalidate_spec h.placed p n
    exact h.move hp (fun d m ch hh => .inl (hsub d m ch hh).1) (by simp [he, Task.Awaits]) hs hn.2
  | settle p n v k => exact h.settle he
  | create p n obj =>
    rw [he] at hn
    simp only
    split
    · refine h.change (fun pl => ?_) (by simp [he, Task.Awaits])
        ⟨by rw [update_self], trivial⟩ ⟨hn, trivial⟩
      by_cases hpl : pl = (V.ident p, n)
      · subst hpl
        have hle := h.settled_le (V.ident p, n)
        simp only [update_self]
        exact .inr ⟨by omega, by omega, .inl (.inl ⟨rfl, rfl⟩)⟩
      · simp only [update_of_ne hpl]
        exact .inl ⟨trivial, trivial, trivial⟩
    · exact h.move h.placed (fun _ _ _ hh => .inl hh) (by simp [he, Task.Awaits]) trivial trivial
  | unlink p n =>
    rw [he] at hn ht
    simp only
    split
    · next hok =>
      refine h.change (fun pl => ?_) (by simp [he, Task.Awaits]) trivial trivial
      by_cases hpl : pl = (V.ident p, n)
      · subst hpl
        simp only [update_self]
        exact .inr ⟨by omega, le_rfl, .inr ⟨trivial, ht hok⟩⟩
      · simp only [update_of_ne hpl]
        exact .inl ⟨trivial, trivial, trivial⟩
    · exact h.move h.placed (fun _ _ _ hh => .inl hh) (by simp [he, Task.Awaits]) trivial trivial
  | rename p old new =>
    rw [he] at hn
    simp only
    split
    swap
    · exact h.move h.placed (fun _ _ _ hh => .inl hh) (by simp [he, Task.Awaits]) trivial trivial
    refine h.change (fun pl => ?_) (by simp [he, Task.Awaits]) ⟨le_rfl, le_rfl, trivial⟩
      ⟨hn.1, hn.2, trivial⟩
    have hle := h.settled_le pl
    by_cases hnew : pl = (V.ident p, new)
    · subst hnew
      simp only [update_self]
      exact .inr ⟨by omega, by omega, .inl (.inr (.inl ⟨rfl, rfl⟩))⟩
    by_cases hold : pl = (V.ident p, old)
    · subst hold
      simp only [update_of_ne hnew, update_self]
      exact .inr ⟨by omega, by omega, .inl (.inl ⟨rfl, rfl⟩)⟩
    · simp only [moved, update_of_ne hnew, update_of_ne hold]
      exact .inl ⟨trivial, trivial, trivial⟩

inductive Request
  | none
  | lookup (p : Node) (n : Name)
  | create (p : Node) (n : Name) (obj : Ident)
  | unlink (p : Node) (n : Name)
  | rename (p : Node) (old new : Name)

def Request.task : Request → Task
  | .none => .done
  | .lookup p n => finddir p n .done
  | .create p n obj => vfsCreate p n obj
  | .unlink p n => vfsUnlink p n
  | .rename p old new => vfsRename p old new

def Request.Short : Request → Prop
  | .none => True
  | .lookup _ n | .create _ n _ | .unlink _ n => n.length < 128
  | .rename _ old new => old.length < 128 ∧ new.length < 128

variable (V follow)

/-- Every thread is about to do what it is asked, and no entry is wrong. -/
structure Start (reqs : ℕ → Request) (s : State) : Prop where
  placed : Placed V s.cache
  coherent : Coherent V follow s
  settled : s.settled = s.version
  threads : ∀ t, s.threads t = (reqs t).task

/-- States reached by steps of which each satisfies `C`. -/
inductive Run (C : State → ℕ → Choice → Prop) (s : State) : State → Prop
  | refl : Run C s s
  | step {s'} (t : ℕ) (c : Choice) : Run C s s' → Honest V follow s' t c → C s' t c →
      Run C s (next V s' t c)

variable {V follow}

theorem Request.short_task {r : Request} (h : r.Short) : r.task.Short := by
  cases r with
  | none => trivial
  | lookup p n => exact ⟨h, trivial⟩
  | create p n obj => exact h
  | unlink p n => exact ⟨h, h, h⟩
  | rename p old new => exact ⟨h.1, h.2, h.1, h.2, h⟩

theorem Start.inv {reqs : ℕ → Request} (h : Start V follow reqs s) (hn : ∀ t, (reqs t).Short) :
    Inv V follow s where
  placed := h.placed
  entries d n ch hh := .inl (h.coherent d n ch hh)
  sound t := by rw [h.threads]; cases reqs t <;> trivial
  short t := by rw [h.threads]; exact Request.short_task (hn t)
  settled_le pl := by rw [h.settled]
  newest pl := .inl (by rw [h.settled])

theorem Run.inv {s' : State} (h : Inv V follow s) (hr : Run V follow (Timely V) s s') :
    Inv V follow s' := by
  induction hr with
  | refl => exact h
  | step t c _ hc ht ih => exact ih.next hc ht

namespace OneDirectory

/-- The inode number of a vnode is its address. -/
def vnodes : Vnodes := ⟨fun n => UInt32.ofNat n, fun _ => 0, fun _ => false⟩

/-- Nothing is cached; the directory is vnode `1`. -/
def start (tree : Place → Option Ident) (reqs : ℕ → Request) : State where
  cache _ := ⟨fun _ => none, 0⟩
  tree
  version _ := 0
  settled _ := 0
  threads t := (reqs t).task

def empty : Place → Option Ident := fun _ => none

def single (n : Name) : Place → Option Ident :=
  update empty (.object 1 0, n) (some (.object 5 0))

def runFrom (s : State) (steps : List (ℕ × Choice)) : State :=
  steps.foldl (fun s (t, c) => next vnodes s t c) s

/-- Every step is an honest one that satisfies `C`. -/
def Follows (C : State → ℕ → Choice → Prop) : State → List (ℕ × Choice) → Prop
  | _, [] => True
  | s, (t, c) :: steps => (Honest vnodes id s t c ∧ C s t c) ∧ Follows C (next vnodes s t c) steps

variable {steps : List (ℕ × Choice)}

theorem Follows.run {C : State → ℕ → Choice → Prop} {s0 : State}
    (hr : Run vnodes id C s0 s) (h : Follows C s steps) : Run vnodes id C s0 (runFrom s steps) := by
  induction steps generalizing s with
  | nil => exact hr
  | cons st steps ih => exact ih (hr.step st.1 st.2 h.1.1 h.1.2) h.2

/-- `unlink` has invalidated the name, and a lookup caches it again before it is removed. -/
def refill : List (ℕ × Choice) :=
  [(0, ⟨true, none⟩), (0, ⟨true, some 5⟩), (0, ⟨true, none⟩), (0, ⟨true, none⟩),
    (1, ⟨true, none⟩), (1, ⟨true, some 5⟩), (1, ⟨true, none⟩), (0, ⟨true, none⟩)]

/-- A name that is not cached under its own bytes. -/
def long : Name := List.replicate 128 97

/-- The lookup is over before the name is created. -/
def inTurn : List (ℕ × Choice) :=
  [(0, ⟨true, none⟩), (0, ⟨true, none⟩), (0, ⟨true, none⟩), (1, ⟨true, none⟩), (1, ⟨true, none⟩)]

end OneDirectory

end AvoryOS.Vfs
