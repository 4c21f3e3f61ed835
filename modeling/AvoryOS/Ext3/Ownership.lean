import AvoryOS.Ext2.Block
import AvoryOS.Lib.Transition

/-!
# Who owns the transaction

Threads take turns as owners of the journal.  A finishing owner hands the lock, still
held, to the oldest live waiter; without one the journal goes idle.  A commit may be left
to the next owner, so it matters that there is one.

The model has the program counter of every thread inside `ext3_journal_start` and
`ext3_journal_stop`, the wait queue, signals, and threads that die anywhere and are reaped
later.  One `act` is one atomic piece of the code: `sched_lock` and the lock of the wait
queue make the selection and publication of a grant one step.

`idle_journal_assigned` is the main result: when the journal is inactive and the closed set
is not empty, some live thread is on its way to commit it, unless the last thread that
could have done so has died, or has forwarded its grant on a stale hint.  `lock_accounted`
says who has the lock whenever it is held.
-/

namespace AvoryOS.Ext3.Ownership

open Bytes Device Function Option Bool Transition WrappedLog

/-- Where a thread is.  `drain` marks the empty handle with which a stop closes a chain. -/
inductive Pc
  | outside
  /-- In the loop of `ext3_journal_start`, without a queue entry. -/
  | entering (drain : Bool)
  /-- The queue entry is added, the recheck is still to come. -/
  | registered (drain : Bool)
  | parked (drain : Bool)
  /-- Woken, with the entry removed. -/
  | woken (drain : Bool)
  /-- Has the lock, and has not published itself as the owner. -/
  | acquired (drain : Bool)
  | operation (drain : Bool)
  /-- Past `ext3_merge_running`. -/
  | stopping (drain : Bool)
  /-- Before `ext3_finish_transaction`. -/
  | handing (deferred : Bool)
  /-- After a deferring stop, before it reads `closed_count`. -/
  | readCount
  /-- After that, before it reads `active`. -/
  | readActive
  /-- Interrupted with a grant that it has taken back. -/
  | cancelled
  /-- Inside `ext3_forward_grant`, before `ext3_grant_next`. -/
  | forwarding
  deriving DecidableEq, Repr

/-- The part of `ext3_journal_state_t` that governs ownership, and the threads.  Thread 0
stands for no thread. -/
structure State where
  store : Store
  active : Bool
  locked : Bool
  owner : ℕ
  granted : ℕ
  depth : ℕ
  waiters : List ℕ
  /-- `THREAD_DEAD` or `THREAD_ZOMBIE`. -/
  dead : ℕ → Bool
  pc : ℕ → Pc

namespace State

def goto (s : State) (t : ℕ) (p : Pc) : State := { s with pc := update s.pc t p }

/-- A queued waiter that is not dead. -/
def LiveWaiter (s : State) : Prop := ∃ w ∈ s.waiters, s.dead w = false

instance (s : State) : Decidable s.LiveWaiter :=
  inferInstanceAs (Decidable (∃ w ∈ s.waiters, s.dead w = false))

/-- `ext3_has_waiters`: dead entries count too. -/
def hasWaiters (s : State) : Bool := !s.waiters.isEmpty

/-- `ext3_grant_next` with `wait_queue_handoff` and `ext3_publish_grant`. -/
def grantNext (s : State) : State :=
  match s.waiters.find? fun w => !s.dead w with
  | some w => { s with waiters := s.waiters.erase w, owner := w, granted := w }
  | none => { s with owner := 0, active := false, locked := false }

end State

inductive Action
  | enter
  | takeGrant
  | tryAcquire
  | register
  | recheck
  | wake
  /-- Woken without a signal. -/
  | retry
  /-- Woken with a pending signal. -/
  | cancel
  | forward
  | grant
  | begin
  | nest
  | block (unchanged : Bool) (b : ℕ) (image : Image)
  /-- `ext3_journal_stop` up to the merge; `flushed` is the result of
  `ext2_flush_metadata`. -/
  | stop (flushed : Bool)
  /-- The decision to defer or to commit; `fresh` compares the clock with the age of the
  chain. -/
  | settle (fresh : Bool)
  | finish
  | readCount
  | readActive

def stopStore (m : Mount) (flushed : Bool) (s : Store) : Store :=
  if s.ioFailed || !flushed then discardRunning s
  else if (mergeRunning m s).1 then (mergeRunning m s).2
  else discardRunning (mergeRunning m s).2

/-- `ext3_forward_grant` before `ext3_grant_next`. -/
def forwardStore (m : Mount) (waiters : Bool) (s : Store) : Store :=
  if !s.closed.isEmpty && !waiters then (commitStore m s).2 else s

/-- One step of thread `t`; `none` when the code cannot take it there. -/
def act (m : Mount) (s : State) (t : ℕ) (a : Action) : Option State :=
  match s.pc t, a with
  | .outside, .enter => if s.active ∧ s.owner = t then none else some (s.goto t (.entering false))
  | .entering d, .takeGrant =>
    if s.granted = t then some { s.goto t (.acquired d) with granted := 0 } else none
  | .entering d, .tryAcquire =>
    if s.active = false ∧ s.locked = false then
      some { s.goto t (.acquired d) with locked := true }
    else none
  | .entering d, .register =>
    if s.granted = t then none
    else some { s.goto t (.registered d) with waiters := s.waiters ++ [t] }
  | .registered d, .recheck =>
    if s.granted = t then some { s.goto t (.acquired d) with granted := 0 }
    else if s.active then some (s.goto t (.parked d))
    else if s.locked then
      -- never park while the journal is inactive
      some { s.goto t (.entering d) with waiters := s.waiters.erase t }
    else some { s.goto t (.acquired d) with locked := true, waiters := s.waiters.erase t }
  | .parked d, .wake => some { s.goto t (.woken d) with waiters := s.waiters.erase t }
  | .woken d, .retry => some (s.goto t (.entering d))
  | .woken _, .cancel =>
    if s.granted = t then some { s.goto t .cancelled with granted := 0 }
    else some (s.goto t .outside)
  | .cancelled, .forward =>
    some { s.goto t .forwarding with store := forwardStore m s.hasWaiters s.store }
  | .forwarding, .grant => some (s.goto t .outside).grantNext
  | .acquired d, .begin =>
    some { s.goto t (.operation d) with
      owner := t, active := true, depth := 1, store := startStore s.store }
  | .operation _, .nest => some { s with depth := s.depth + 1 }
  | .operation _, .block unchanged b image =>
    some { s with store := (journalBlock m unchanged s.store b image).2 }
  | .operation d, .stop flushed =>
    if 1 < s.depth then some { s with depth := s.depth - 1 }
    else some { s.goto t (.stopping d) with store := stopStore m flushed s.store }
  | .stopping d, .settle fresh =>
    if s.store.closed.isEmpty then some (s.goto t (.handing false))
    else if !d && shouldDefer m s.hasWaiters fresh s.store then
      some { s.goto t (.handing true) with
        store := { s.store with closedHandles := s.store.closedHandles + 1 } }
    else some { s.goto t (.handing false) with store := (commitStore m s.store).2 }
  | .handing deferred, .finish =>
    some { s.goto t (if deferred then .readCount else .outside) with
      store := discardRunning s.store, depth := 0 }.grantNext
  | .readCount, .readCount =>
    some (s.goto t (if s.store.closed.isEmpty then .outside else .readActive))
  | .readActive, .readActive =>
    some (s.goto t (if s.active then .outside else .entering true))
  | _, _ => none

/-- `ext3_journal_release_owner` on this mount. -/
def State.releaseOwner (s : State) (t : ℕ) : State :=
  if s.active ∧ s.owner = t then
    if s.granted = t then { s with granted := 0 }.grantNext
    else if s.locked then { s with store := abortStore s.store, depth := 0 }.grantNext
    else s
  else s

variable {m : Mount} {s s' : State} {t : ℕ} {a : Action}

theorem act_forwarding
    (hpc : s.pc t = .forwarding) (hact : act m s t a = some s') : a = .grant := by
  cases a with
  | grant => rfl
  | _ => simp [act, hpc] at hact

inductive Event
  | run (t : ℕ) (a : Action)
  /-- A thread is killed; it takes no further step. -/
  | die (t : ℕ)
  /-- The reaper removes the queue entries of a dead thread. -/
  | cleanup (t : ℕ)
  /-- After that, the reaper releases what the dead thread owned. -/
  | release (t : ℕ)

def step (m : Mount) (s : State) : Event → Option State
  | .run t a => if t ≠ 0 ∧ s.dead t = false then act m s t a else none
  | .die t => some { s with dead := update s.dead t true }
  | .cleanup t =>
    if s.dead t then some { s with waiters := s.waiters.filter (· ≠ t) } else none
  | .release t =>
    if s.dead t ∧ t ∉ s.waiters ∧ t ≠ 0 then some ((s.goto t .outside).releaseOwner t) else none

/-- A freshly mounted journal, and threads that have not used it. -/
def State.fresh (j : Journal) (d : Disk) : State :=
  ⟨(mounted j d).2, false, false, 0, 0, 0, [], fun _ => false, fun _ => .outside⟩

def runEvents (m : Mount) : State → List Event → Option State := run (step m)

/-! ## Mutual exclusion -/

variable {p : Pc}

namespace Pc

def holds : Pc → Bool
  | .acquired _ | .operation _ | .stopping _ | .handing _ | .cancelled | .forwarding => true
  | _ => false

/-- The thread holds the lock and the journal is active. -/
def owns : Pc → Bool
  | .operation _ | .stopping _ | .handing _ | .cancelled | .forwarding => true
  | _ => false

/-- The thread is on its way to own the journal whatever happens, as long as the journal is
inactive. -/
def assigned : Pc → Bool
  | .entering true | .registered true | .acquired _ | .readCount | .readActive => true
  | _ => false

theorem holds_of_owns (h : p.owns = true) : p.holds = true := by
  cases p with
  | operation | stopping | handing | cancelled | forwarding => rfl
  | outside | entering | registered | parked | woken | acquired | readCount | readActive =>
    exact absurd h false_ne_true

end Pc

/-- What a stop has done with the closed set: left it to the next owner, or committed it. -/
def Settled (deferred : Bool) (st : Store) : Prop := deferred = false → st.closed = []

/-- At most one thread holds the lock, and no thread does while a grant is pending. -/
structure Exclusive (s : State) : Prop where
  unique : ∀ t u, (s.pc t).holds = true → (s.pc u).holds = true → t = u
  pending : s.granted ≠ 0 → s.active = true ∧ s.owner = s.granted ∧ ∀ t, (s.pc t).holds = false
  locked_of_holds : ∀ t, (s.pc t).holds = true → s.locked = true
  locked_of_active : s.active = true → s.locked = true
  owner_eq : ∀ t, (s.pc t).holds = true → s.active = true → s.owner = t
  active_of_owns : ∀ t, (s.pc t).owns = true → s.active = true
  settled : ∀ t deferred, s.pc t = .handing deferred → Settled deferred s.store

namespace Exclusive

theorem fresh (j : Journal) (d : Disk) : Exclusive (State.fresh j d) := by
  constructor <;> simp [State.fresh, Pc.holds, Pc.owns]

theorem granted_eq_zero (h : Exclusive s) (ht : (s.pc t).holds = true) : s.granted = 0 := by
  by_contra hg
  exact false_ne_true (((h.pending hg).2.2 t).symm.trans ht)

theorem goto_pc (s : State) (t : ℕ) (p : Pc) (u : ℕ) :
    (s.goto t p).pc u = if u = t then p else s.pc u := by
  simp [State.goto, update_apply]

theorem goto_pc_self : (s.goto t p).pc t = p := update_self ..

theorem of_holder (t : ℕ) (hother : ∀ u, u ≠ t → (s.pc u).holds = false)
    (hgranted : s.granted = 0) (hlocked : s.locked = true)
    (howner : s.active = true → s.owner = t) (howns : (s.pc t).owns = true → s.active = true)
    (hsettled : ∀ deferred, s.pc t = .handing deferred → Settled deferred s.store) :
    Exclusive s := by
  have hone : ∀ u, (s.pc u).holds = true → u = t := by
    intro u hu
    by_contra hne
    exact false_ne_true ((hother u hne).symm.trans hu)
  refine ⟨?_, ?_, fun _ _ => hlocked, fun _ => hlocked, ?_, ?_, ?_⟩
  · exact fun u v hu hv => (hone u hu).trans (hone v hv).symm
  · exact absurd hgranted
  · exact fun u hu hact => (howner hact).trans (hone u hu).symm
  · intro u hu
    rw [hone u (Pc.holds_of_owns hu)] at hu
    exact howns hu
  · intro u deferred hu
    rw [hone u (by rw [hu]; rfl)] at hu
    exact hsettled deferred hu

theorem of_free (hfree : ∀ u, (s.pc u).holds = false)
    (hpending : s.granted ≠ 0 → s.active = true ∧ s.owner = s.granted)
    (hlocked : s.active = true → s.locked = true) : Exclusive s := by
  have hnot : ∀ u, (s.pc u).holds ≠ true := by
    intro u hu
    exact false_ne_true ((hfree u).symm.trans hu)
  refine ⟨?_, ?_, ?_, hlocked, ?_, ?_, ?_⟩
  · exact fun u _ hu => absurd hu (hnot u)
  · exact fun hg => ⟨(hpending hg).1, (hpending hg).2, hfree⟩
  · exact fun u hu => absurd hu (hnot u)
  · exact fun u hu => absurd hu (hnot u)
  · exact fun u hu => absurd (Pc.holds_of_owns hu) (hnot u)
  · exact fun u _ hu => absurd (by rw [hu]; rfl) (hnot u)

theorem other_free (h : Exclusive s) (ht : (s.pc t).holds = true) :
    ∀ u, u ≠ t → (s.pc u).holds = false := by
  intro u hne
  by_contra hu
  exact hne (h.unique u t (by simpa using hu) ht)

theorem free_of_unlocked (h : Exclusive s) (hl : s.locked = false) :
    ∀ u, (s.pc u).holds = false := by
  intro u
  by_contra hu
  exact false_ne_true (hl.symm.trans (h.locked_of_holds u (by simpa using hu)))

theorem inactive_of_unlocked (h : Exclusive s) (hl : s.locked = false) : s.active = false := by
  by_contra hact
  exact false_ne_true (hl.symm.trans (h.locked_of_active (by simpa using hact)))

theorem goto_other (hother : ∀ u, u ≠ t → (s.pc u).holds = false) :
    ∀ u, u ≠ t → ((s.goto t p).pc u).holds = false := by
  intro u hne
  rw [goto_pc, if_neg hne]
  exact hother u hne

theorem goto_all_free (hother : ∀ u, u ≠ t → (s.pc u).holds = false)
    (hp : p.holds = false) : ∀ u, ((s.goto t p).pc u).holds = false := by
  intro u
  by_cases hut : u = t
  · rw [goto_pc, if_pos hut]
    exact hp
  · exact goto_other hother u hut

theorem goto_free (h : Exclusive s) (t : ℕ) (hp : p.holds = false) : Exclusive (s.goto t p) := by
  have hpc : ∀ u, ((s.goto t p).pc u).holds = true → (s.goto t p).pc u = s.pc u := by
    intro u hu
    rw [goto_pc] at hu ⊢
    by_cases hut : u = t
    · rw [if_pos hut, hp] at hu
      exact absurd hu false_ne_true
    · rw [if_neg hut]
  refine ⟨?_, ?_, ?_, h.locked_of_active, ?_, ?_, ?_⟩
  · intro u v hu hv
    exact h.unique u v (hpc u hu ▸ hu) (hpc v hv ▸ hv)
  · intro hg
    refine ⟨(h.pending hg).1, (h.pending hg).2.1, ?_⟩
    intro u
    rw [goto_pc]
    split
    · exact hp
    · exact (h.pending hg).2.2 u
  · exact fun u hu => h.locked_of_holds u (hpc u hu ▸ hu)
  · exact fun u hu => h.owner_eq u (hpc u hu ▸ hu)
  · intro u hu
    have heq := hpc u (Pc.holds_of_owns hu)
    exact h.active_of_owns u (heq ▸ hu)
  · intro u deferred hu
    have heq := hpc u (by rw [hu]; rfl)
    exact h.settled u deferred (heq ▸ hu)

theorem goto_holding (h : Exclusive s) {st : Store} (ht : (s.pc t).holds = true)
    (hp : p.owns = true → s.active = true)
    (hs : ∀ deferred, p = .handing deferred → Settled deferred st) :
    Exclusive { s.goto t p with store := st } := by
  exact of_holder t (goto_other (h.other_free ht)) (h.granted_eq_zero ht) (h.locked_of_holds t ht)
    (h.owner_eq t ht) (fun ho => hp ((congrArg Pc.owns goto_pc_self).symm.trans ho))
    (fun deferred hh => hs deferred (goto_pc_self.symm.trans hh))

theorem take (h : Exclusive s) (hg : s.granted = t) (ht : t ≠ 0)
    (hs : ∀ deferred, p ≠ .handing deferred) : Exclusive { s.goto t p with granted := 0 } := by
  obtain ⟨hact, howner, hfree⟩ := h.pending (hg ▸ ht)
  exact of_holder t (goto_other fun u _ => hfree u) rfl (h.locked_of_active hact)
    (fun _ => howner.trans hg) (fun _ => hact) fun deferred hh =>
      absurd (goto_pc_self.symm.trans hh) (hs deferred)

theorem acquire (h : Exclusive s) (t : ℕ) (d : Bool) (hl : s.locked = false) :
    Exclusive { s.goto t (.acquired d) with locked := true } := by
  have hact := h.inactive_of_unlocked hl
  have hgranted : s.granted = 0 := by
    by_contra hg
    exact false_ne_true (hact.symm.trans (h.pending hg).1)
  refine of_holder t (goto_other fun u _ => h.free_of_unlocked hl u) hgranted rfl ?_ ?_ ?_
  · exact fun ha => absurd (hact.symm.trans ha) false_ne_true
  · exact fun ho => absurd ((congrArg Pc.owns goto_pc_self).symm.trans ho) false_ne_true
  · exact fun _ hh => absurd (goto_pc_self.symm.trans hh) Pc.noConfusion

theorem grantNext (hfree : ∀ u, (s.pc u).holds = false) (hgranted : s.granted = 0)
    (hact : s.active = true) (hlocked : s.locked = true) : Exclusive s.grantNext := by
  rw [State.grantNext]
  split
  · exact of_free hfree (fun _ => ⟨hact, rfl⟩) (fun _ => hlocked)
  · exact of_free hfree (absurd hgranted) (fun h => absurd h false_ne_true)

theorem handOn (h : Exclusive s) (howns : (s.pc t).owns = true) (hp : p.holds = false) (st : Store)
    (depth : ℕ) : Exclusive { s.goto t p with store := st, depth := depth }.grantNext := by
  have hholds := Pc.holds_of_owns howns
  exact grantNext (goto_all_free (h.other_free hholds) hp) (h.granted_eq_zero hholds)
    (h.active_of_owns t howns) (h.locked_of_holds t hholds)

end Exclusive

/-! ## What a step can do -/

/-- The steps of a thread, by what they do to the lock. -/
inductive Move (s : State) (t : ℕ) : State → Prop
  /-- Go on without the lock, and without giving up a chain. -/
  | free {p : Pc} (ws : List ℕ) (hfrom : (s.pc t).holds = false) (hp : p.holds = false)
      (hkeep : s.active = false → s.store.closed ≠ [] → (s.pc t).assigned = true →
        p.assigned = true) : Move s t { s.goto t p with waiters := ws }
  | take {p : Pc} (hg : s.granted = t) (hp : ∀ deferred, p ≠ .handing deferred) :
      Move s t { s.goto t p with granted := 0 }
  | acquire (d : Bool) (ws : List ℕ) (hl : s.locked = false) :
      Move s t { s.goto t (.acquired d) with locked := true, waiters := ws }
  | begin (d : Bool) (st : Store) (hfrom : s.pc t = .acquired d) :
      Move s t { s.goto t (.operation d) with
        owner := t, active := true, depth := 1, store := st }
  /-- Work on the journal as its owner. -/
  | work {p : Pc} (st : Store) (depth : ℕ) (hfrom : (s.pc t).owns = true) (hp : p.owns = true)
      (hs : ∀ deferred, p = .handing deferred → Settled deferred st) :
      Move s t { s.goto t p with store := st, depth := depth }
  | finish (deferred : Bool) (hfrom : s.pc t = .handing deferred) :
      Move s t { s.goto t (if deferred then .readCount else .outside) with
        store := discardRunning s.store, depth := 0 }.grantNext
  | forward (hfrom : s.pc t = .forwarding) : Move s t (s.goto t .outside).grantNext

theorem goto_self (h : s.pc t = p) : s.goto t p = s := by
  rw [State.goto, ← h, update_eq_self]

variable {d : Bool}

theorem Move.stay (st : Store) (depth : ℕ)
    (hfrom : s.pc t = .operation d) : Move s t { s with store := st, depth := depth } := by
  have hmove : Move s t { s.goto t (.operation d) with store := st, depth := depth } :=
    .work st depth (by rw [hfrom]; rfl) rfl (by simp)
  rwa [goto_self hfrom] at hmove

theorem move_of_act (hact : act m s t a = some s') : Move s t s' := by
  simp only [act] at hact
  split at hact
  case h_1 hpc =>
    split_ifs at hact
    cases hact
    exact .free s.waiters (by rw [hpc]; rfl) rfl (by simp [hpc, Pc.assigned])
  case h_2 d hpc =>
    split_ifs at hact with hg
    cases hact
    exact .take hg (by simp)
  case h_3 d hpc =>
    split_ifs at hact with hfree
    cases hact
    exact .acquire d s.waiters hfree.2
  case h_4 d hpc =>
    split_ifs at hact
    cases hact
    refine .free (s.waiters ++ [t]) (by rw [hpc]; rfl) rfl ?_
    cases d <;> simp [hpc, Pc.assigned]
  case h_5 d hpc =>
    split_ifs at hact with hg hactive hlocked <;> cases hact
    · exact .take hg (by simp)
    · exact .free s.waiters (by rw [hpc]; rfl) rfl (by simp [hactive])
    · refine .free (s.waiters.erase t) (by rw [hpc]; rfl) rfl ?_
      cases d <;> simp [hpc, Pc.assigned]
    · exact .acquire d (s.waiters.erase t) (by simpa using hlocked)
  case h_6 d hpc =>
    cases hact
    exact .free (s.waiters.erase t) (by rw [hpc]; rfl) rfl (by simp [hpc, Pc.assigned])
  case h_7 d hpc =>
    cases hact
    exact .free s.waiters (by rw [hpc]; rfl) rfl (by simp [hpc, Pc.assigned])
  case h_8 d hpc =>
    split_ifs at hact with hg <;> cases hact
    · exact .take hg (by simp)
    · exact .free s.waiters (by rw [hpc]; rfl) rfl (by simp [hpc, Pc.assigned])
  case h_9 hpc =>
    cases hact
    exact .work (forwardStore m s.hasWaiters s.store) s.depth (by rw [hpc]; rfl) rfl (by simp)
  case h_10 hpc =>
    cases hact
    exact .forward hpc
  case h_11 d hpc =>
    cases hact
    exact .begin d (startStore s.store) hpc
  case h_12 d hpc =>
    cases hact
    exact .stay s.store (s.depth + 1) hpc
  case h_13 d unchanged b image hpc =>
    cases hact
    exact .stay (journalBlock m unchanged s.store b image).2 s.depth hpc
  case h_14 d flushed hpc =>
    split_ifs at hact <;> cases hact
    · exact .stay s.store (s.depth - 1) hpc
    · exact .work (stopStore m flushed s.store) s.depth (by rw [hpc]; rfl) rfl (by simp)
  case h_15 d fresh hpc =>
    split_ifs at hact with hclosed hdefer <;> cases hact
    · exact .work s.store s.depth (by rw [hpc]; rfl) rfl (by simpa [Settled] using hclosed)
    · exact .work _ s.depth (by rw [hpc]; rfl) rfl (by simp [Settled])
    · exact .work (commitStore m s.store).2 s.depth (by rw [hpc]; rfl) rfl
        (by simp [Settled, commitStore])
  case h_16 deferred hpc =>
    cases hact
    exact .finish deferred hpc
  case h_17 hpc =>
    cases hact
    refine .free s.waiters (by rw [hpc]; rfl) (by split <;> rfl) fun _ hne _ => ?_
    simp [hne, Pc.assigned]
  case h_18 hpc =>
    cases hact
    refine .free s.waiters (by rw [hpc]; rfl) (by split <;> rfl) fun hinactive _ _ => ?_
    simp [hinactive, Pc.assigned]
  case h_19 => simp at hact

open Exclusive

theorem Exclusive.move (h : Exclusive s) (ht : t ≠ 0) (hmove : Move s t s') : Exclusive s' := by
  cases hmove with
  | free ws hfrom hp hkeep => exact { h.goto_free t hp with }
  | take hg hp => exact h.take hg ht hp
  | acquire d ws hl => exact { h.acquire t d hl with }
  | begin d st hfrom =>
    have hholds : (s.pc t).holds = true := by rw [hfrom]; rfl
    exact .of_holder t (goto_other (h.other_free hholds)) (h.granted_eq_zero hholds)
      (h.locked_of_holds t hholds) (fun _ => rfl) (fun _ => rfl)
      (fun _ hh => absurd (goto_pc_self.symm.trans hh) Pc.noConfusion)
  | work st depth hfrom hp hs =>
    exact { h.goto_holding (Pc.holds_of_owns hfrom) (fun _ => h.active_of_owns t hfrom) hs with }
  | finish deferred hfrom => exact h.handOn (by rw [hfrom]; rfl) (by split <;> rfl) _ 0
  | forward hfrom => exact h.handOn (by rw [hfrom]; rfl) rfl s.store s.depth

theorem Exclusive.release (h : Exclusive s) (t : ℕ) :
    Exclusive ((s.goto t .outside).releaseOwner t) := by
  have hleave := h.goto_free t (p := .outside) rfl
  rw [State.releaseOwner]
  split
  swap
  · exact hleave
  rename_i howner
  -- the owner is the only thread that can hold the lock
  have hother : ∀ u, u ≠ t → (s.pc u).holds = false := by
    intro u hne
    by_contra hu
    exact hne ((h.owner_eq u (by simpa using hu) howner.1).symm.trans howner.2)
  have hfree := goto_all_free (p := .outside) hother rfl
  split
  · exact grantNext hfree rfl howner.1 (h.locked_of_active howner.1)
  rename_i hgranted
  have hzero : s.granted = 0 := by
    by_contra hg
    exact hgranted ((h.pending hg).2.1.symm.trans howner.2)
  split
  · exact grantNext hfree hzero howner.1 (h.locked_of_active howner.1)
  · exact hleave

theorem Exclusive.step {e : Event} (h : Exclusive s)
    (hstep : step m s e = some s') : Exclusive s' := by
  cases e with
  | run t a =>
    obtain ⟨hrun, hact⟩ := ite_none_right_eq_some.mp hstep
    exact h.move hrun.1 (move_of_act hact)
  | die t =>
    cases hstep
    exact { h with }
  | cleanup t =>
    obtain ⟨-, he⟩ := ite_none_right_eq_some.mp hstep
    cases he
    exact { h with }
  | release t =>
    obtain ⟨-, he⟩ := ite_none_right_eq_some.mp hstep
    cases he
    exact h.release t

/-! ## A chain is never left alone -/

/-- A live thread is on its way to own the journal, and nobody else has the lock. -/
def State.Assigned (s : State) : Prop :=
  ∃ t, t ≠ 0 ∧ s.dead t = false ∧ (s.pc t).assigned = true ∧
    (s.locked = true → ∃ d, s.pc t = .acquired d)

/-- An inactive journal has an empty closed set, or a thread that will commit it. -/
def Covered (s : State) : Prop :=
  s.active = false → s.store.closed = [] ∨ s.Assigned

/-- The steps that cannot strand a chain.  A thread that alone could commit the closed set
does not die; an owner that is released, and a waiter that forwards its grant, have a live
waiter behind them. -/
def Careful (s : State) : Event → Prop
  | .die t => s.active = true ∨ s.store.closed = [] ∨ (s.pc t).assigned = false
  | .release t => s.active = false ∨ s.owner ≠ t ∨ s.store.closed = [] ∨ s.LiveWaiter
  | .run _ .grant => s.store.closed = [] ∨ s.LiveWaiter
  | _ => True

theorem grantNext_active (hact : s.active = true) (hlive : s.LiveWaiter) :
    s.grantNext.active = true := by
  rw [State.grantNext]
  split
  · exact hact
  rename_i hnone
  obtain ⟨w, hw, hdead⟩ := hlive
  have := List.find?_eq_none.mp hnone w hw
  simp [hdead] at this

theorem grantNext_unlocked (hidle : s.grantNext.active = false)
    (hact : s.active = true) : s.grantNext.locked = false := by
  rw [State.grantNext] at hidle ⊢
  split at hidle
  · exact absurd (hact.symm.trans hidle) (by decide)
  · rfl

theorem grantNext_frame (s : State) :
    s.grantNext.store = s.store ∧ s.grantNext.pc = s.pc ∧ s.grantNext.dead = s.dead := by
  rw [State.grantNext]
  split <;> exact ⟨rfl, rfl, rfl⟩

theorem covered_grantNext (hact : s.active = true)
    (h : s.store.closed = [] ∨ s.LiveWaiter ∨
      ∃ t, t ≠ 0 ∧ s.dead t = false ∧ s.pc t = .readCount) : Covered s.grantNext := by
  obtain ⟨hstore, hpcs, hdeads⟩ := grantNext_frame s
  intro hidle
  rw [hstore]
  rcases h with h | h | ⟨t, ht, hdead, hpc⟩
  · exact .inl h
  · exact absurd ((grantNext_active hact h).symm.trans hidle) (by decide)
  refine .inr ⟨t, ht, by rwa [hdeads], ?_, ?_⟩
  · rw [hpcs, hpc]
    rfl
  · intro hlocked
    exact absurd (hlocked.symm.trans (grantNext_unlocked hidle hact)) (by decide)

theorem Covered.move (h : Covered s) (hexcl : Exclusive s) (ht : t ≠ 0) (hlive : s.dead t = false)
    (hforward : s.pc t = .forwarding → s.store.closed = [] ∨ s.LiveWaiter)
    (hmove : Move s t s') : Covered s' := by
  cases hmove with
  | @free p ws hfrom hp hkeep =>
    intro hidle
    by_cases hnil : s.store.closed = []
    · exact .inl hnil
    rcases h hidle with hnil' | ⟨u, hu0, hdead, hu, hlock⟩
    · exact absurd hnil' hnil
    refine .inr ⟨u, hu0, hdead, ?_, ?_⟩
    · by_cases hut : u = t
      · subst hut
        have hp' := hkeep hidle hnil hu
        simpa [goto_pc] using hp'
      · simpa [goto_pc, hut] using hu
    intro hlocked
    obtain ⟨d, hd⟩ := hlock hlocked
    have hut : u ≠ t := by
      rintro rfl
      rw [hd] at hfrom
      exact Bool.noConfusion hfrom
    exact ⟨d, by simpa [goto_pc, hut] using hd⟩
  | take hg hp =>
    intro hidle
    exact absurd ((hexcl.pending (hg ▸ ht)).1.symm.trans hidle) (by decide)
  | acquire d ws hl =>
    intro hidle
    exact .inr ⟨t, ht, hlive, congrArg Pc.assigned goto_pc_self,
      fun _ => ⟨d, goto_pc_self⟩⟩
  | begin d st hfrom => exact Bool.noConfusion
  | work st depth hfrom hp hs =>
    intro hidle
    exact absurd ((hexcl.active_of_owns t hfrom).symm.trans hidle) (by decide)
  | finish deferred hfrom =>
    have hactive := hexcl.active_of_owns t (by rw [hfrom]; rfl)
    have hsettled := hexcl.settled t deferred hfrom
    refine covered_grantNext hactive ?_
    cases deferred with
    | false => exact .inl (hsettled rfl)
    | true =>
      refine .inr (.inr ⟨t, ht, hlive, ?_⟩)
      rw [goto_pc, if_pos rfl, if_pos rfl]
  | forward hfrom =>
    have hactive := hexcl.active_of_owns t (by rw [hfrom]; rfl)
    exact covered_grantNext hactive ((hforward hfrom).imp_right .inl)

theorem Covered.release (h : Covered s) (hdead : s.dead t = true)
    (hcareful : Careful s (.release t)) : Covered ((s.goto t .outside).releaseOwner t) := by
  -- the thread is dead, so it is not one that the closed set waits for
  have hleave : Covered (s.goto t .outside) := by
    intro hidle
    rcases h hidle with hnil | ⟨u, hu0, hlive, hu⟩
    · exact .inl hnil
    have hne : u ≠ t := by
      rintro rfl
      exact false_ne_true (hlive.symm.trans hdead)
    have hpc : (s.goto t .outside).pc u = s.pc u := by rw [goto_pc, if_neg hne]
    exact .inr ⟨u, hu0, hlive, by rwa [hpc]⟩
  rw [State.releaseOwner]
  split
  swap
  · exact hleave
  rename_i howner
  have hnext : s.store.closed = [] ∨ s.LiveWaiter := by
    rcases hcareful with hidle | hne | hnil | hwait
    · exact absurd (hidle.symm.trans howner.1) (by decide)
    · exact absurd howner.2 hne
    · exact .inl hnil
    · exact .inr hwait
  have hcover : ∀ s' : State, s'.active = true → s'.store.closed = s.store.closed →
      s'.waiters = s.waiters → s'.dead = s.dead → Covered s'.grantNext := by
    intro s' hactive hclosed hwaiters hdead'
    refine covered_grantNext hactive ?_
    rw [hclosed, State.LiveWaiter, hwaiters, hdead']
    exact hnext.imp_right .inl
  split
  · exact hcover _ howner.1 rfl rfl rfl
  split
  · exact hcover _ howner.1 rfl rfl rfl
  · exact hleave

/-- **A careful step leaves no chain alone.** -/
theorem Covered.step {e : Event} (h : Covered s)
    (hexcl : Exclusive s) (hcareful : Careful s e) (hstep : step m s e = some s') : Covered s' := by
  cases e with
  | run t a =>
    obtain ⟨hrun, hact⟩ := ite_none_right_eq_some.mp hstep
    refine h.move hexcl hrun.1 hrun.2 ?_ (move_of_act hact)
    intro hpc
    rw [act_forwarding hpc hact] at hcareful
    exact hcareful
  | die t =>
    cases hstep
    intro hidle
    rcases hcareful with hactive | hnil | hpc
    · exact absurd (hactive.symm.trans hidle) (by decide)
    · exact .inl hnil
    rcases h hidle with hnil | ⟨u, hu0, hdead, hu⟩
    · exact .inl hnil
    refine .inr ⟨u, hu0, ?_, hu⟩
    have hne : u ≠ t := by
      rintro rfl
      exact false_ne_true (hpc.symm.trans hu.1)
    simpa [hne] using hdead
  | cleanup t =>
    obtain ⟨-, he⟩ := ite_none_right_eq_some.mp hstep
    cases he
    exact h
  | release t =>
    obtain ⟨hdead, he⟩ := ite_none_right_eq_some.mp hstep
    cases he
    exact h.release hdead.1 hcareful

/-- The states of the runs whose steps are all careful. -/
def CarefulReach (m : Mount) (j : Journal) (d : Disk) : State → Prop :=
  Relation.ReflTransGen (fun s s' => ∃ e, Careful s e ∧ step m s e = some s') (State.fresh j d)

theorem CarefulReach.covered {j : Journal} {d : Disk}
    (h : CarefulReach m j d s) : Exclusive s ∧ Covered s := by
  induction h with
  | refl => exact ⟨fresh j d, fun _ => .inl rfl⟩
  | tail _ hstep ih =>
    obtain ⟨e, hcareful, hstep⟩ := hstep
    exact ⟨ih.1.step hstep, ih.2.step ih.1 hcareful hstep⟩

/-! ## An assigned thread commits -/

/-- A merge and a commit that the step makes go through. -/
def Commits (m : Mount) (s : State) : Event → Prop
  | .run _ (.stop flushed) =>
    s.store.ioFailed = false → flushed = true → (mergeRunning m s.store).1 = true
  | .run t (.settle fresh) =>
    (s.pc t = .stopping false ∧ shouldDefer m s.hasWaiters fresh s.store = true) ∨
      (commitStore m s.store).1 = true
  | _ => True

/-- The closed set is committed; or `t`, which had the lock for a handle of its own in `s`, has
left it to a live waiter. -/
def Disposed (s : State) (t : ℕ) (x : State) : Prop :=
  x.store.closed = [] ∨
    s.pc t = .acquired false ∧ x.active = true ∧ x.granted ∈ s.waiters ∧ s.dead x.granted = false

/-- However its own steps come out, the thread can go on until it leaves the journal, and has
then disposed of the closed set.  If the commits go through, no block has lost its contents that
it did not journal itself. -/
def Drains (m : Mount) (s : State) (t : ℕ) : Prop :=
  ∀ (actions : List Action) (x : State), Action.enter ∉ actions →
    runEvents m s (actions.map (.run t)) = some x →
    (∃ (rest : List Action) (y : State), Action.enter ∉ rest ∧
      runEvents m x (rest.map (.run t)) = some y ∧ y.pc t = .outside) ∧
    (x.pc t = .outside → Disposed s t x ∧
      (Along (step m) (Commits m) s (actions.map (.run t)) → ∀ b,
        (∀ unchanged image, Action.block unchanged b image ∉ actions) →
        OutsideLog m s.store.journal.journalBlocks b →
        Ext2.settledView x.store b = Ext2.settledView s.store b))

/-- Where `t` can be on its way, and what holds of the state `x` there. -/
def Place (s : State) (t : ℕ) (x : State) : Pc → Prop
  | .outside => Disposed s t x
  | .entering d | .registered d =>
    d = true ∧ x.active = false ∧ x.locked = false ∧ x.granted = 0
  | .acquired d => x.granted = 0 ∧ (d = false → s.pc t = .acquired false ∧ x.waiters = s.waiters)
  | .operation d | .stopping d => x.granted = 0 ∧ x.active = true ∧
      (d = false → s.pc t = .acquired false ∧ x.waiters = s.waiters)
  | .handing deferred => x.granted = 0 ∧ x.active = true ∧
      (if deferred then s.pc t = .acquired false ∧ x.waiters = s.waiters else x.store.closed = [])
  | .readCount | .readActive =>
    x.active = false ∧ x.locked = false ∧ x.granted = 0 ∨ x.active = true ∧ Disposed s t x
  | _ => False

section Drains

variable {x y : State} {b : ℕ}

theorem place_of_assigned (hexcl : Exclusive s) (hidle : s.active = false)
    (hassigned : (s.pc t).assigned = true) (hlock : s.locked = true → ∃ d, s.pc t = .acquired d) :
    Place s t s (s.pc t) := by
  have hgranted : s.granted = 0 := by
    by_contra hg
    exact false_ne_true (hidle.symm.trans (hexcl.pending hg).1)
  have hfree : (∀ d, s.pc t ≠ .acquired d) → s.locked = false := fun hne => by
    by_contra hl
    obtain ⟨d, hd⟩ := hlock (by simpa using hl)
    exact hne d hd
  cases hpc : s.pc t with
  | entering d | registered d =>
    rw [hpc] at hassigned
    cases d with
    | true => exact ⟨rfl, hidle, hfree (by simp [hpc]), hgranted⟩
    | false => exact absurd hassigned false_ne_true
  | acquired d => exact ⟨hgranted, fun hd => ⟨hd ▸ hpc, rfl⟩⟩
  | readCount | readActive => exact .inl ⟨hidle, hfree (by simp [hpc]), hgranted⟩
  | outside | parked | woken | operation | stopping | handing | cancelled | forwarding =>
    rw [hpc] at hassigned
    exact absurd hassigned false_ne_true

/-- The lock is handed on at the end of a handle: to a waiter, or the journal goes idle. -/
theorem disposed_grantNext {st : Store} (hg : x.granted = 0) (hact : x.active = true)
    (hord : s.pc t = .acquired false) (hw : x.waiters = s.waiters) (hdead : x.dead = s.dead) :
    let y := { x.goto t p with store := st, depth := 0 }.grantNext
    y.active = false ∧ y.locked = false ∧ y.granted = 0 ∨ y.active = true ∧ Disposed s t y := by
  dsimp only
  rw [State.grantNext]
  split
  · rename_i w hfind
    have hmem : w ∈ s.waiters := hw ▸ List.mem_of_find?_eq_some hfind
    have hlive : s.dead w = false := by simpa [State.goto, hdead] using List.find?_some hfind
    exact .inr ⟨hact, .inr ⟨hord, hact, hmem, hlive⟩⟩
  · exact .inl ⟨rfl, rfl, hg⟩

/-- **A step of the thread keeps it on its way.** -/
theorem Place.act (h : Place s t x (x.pc t)) (ht : t ≠ 0) (hdead : x.dead = s.dead)
    (ha : a ≠ .enter) (hact : act m x t a = some y) : Place s t y (y.pc t) := by
  simp only [Ownership.act] at hact
  split at hact
  case h_1 => exact absurd rfl ha
  case h_19 => simp at hact
  all_goals
    rename_i hpc
    rw [hpc] at h
  case h_2 d =>
    obtain ⟨rfl, -, -, hg⟩ := h
    exact absurd ((ite_none_right_eq_some.mp hact).1.symm.trans hg) ht
  case h_3 d =>
    obtain ⟨rfl, -, -, hg⟩ := h
    obtain ⟨-, rfl⟩ := guard_eq_some.mp hact
    rw [goto_pc_self]
    exact ⟨hg, nofun⟩
  case h_4 d =>
    split_ifs at hact
    cases hact
    rw [goto_pc_self]
    exact h
  case h_5 d =>
    obtain ⟨rfl, hidle, hl, hg⟩ := h
    simp only [hg, hidle, hl, ht.symm, if_false, Bool.false_eq_true] at hact
    cases hact
    rw [goto_pc_self]
    exact ⟨hg, nofun⟩
  case h_11 d =>
    cases hact
    rw [goto_pc_self]
    exact ⟨h.1, rfl, h.2⟩
  case h_12 | h_13 =>
    cases hact
    rw [hpc]
    exact h
  case h_14 d flushed =>
    split_ifs at hact <;> cases hact
    · rw [hpc]
      exact h
    · rw [goto_pc_self]
      exact h
  case h_15 d fresh =>
    obtain ⟨hg, hactive, hord⟩ := h
    split_ifs at hact with hclosed hdefer <;> cases hact <;> rw [goto_pc_self]
    · exact ⟨hg, hactive, List.isEmpty_iff.mp hclosed⟩
    · cases d with
      | false => exact ⟨hg, hactive, hord rfl⟩
      | true => simp at hdefer
    · exact ⟨hg, hactive, rfl⟩
  case h_16 deferred =>
    obtain ⟨hg, hactive, hend⟩ := h
    cases hact
    rw [(grantNext_frame _).2.1, goto_pc_self]
    cases deferred with
    | false => exact .inl ((congrArg Store.closed (grantNext_frame _).1).trans hend)
    | true => exact disposed_grantNext hg hactive hend.1 hend.2 hdead
  case h_17 =>
    cases hact
    rw [goto_pc_self]
    split_ifs with hclosed
    · exact .inl (List.isEmpty_iff.mp hclosed)
    · exact h
  case h_18 =>
    cases hact
    rw [goto_pc_self]
    obtain ⟨hidle, hl, hg⟩ | ⟨hactive, hd⟩ := h
    · rw [if_neg (by simp [hidle])]
      exact ⟨rfl, hidle, hl, hg⟩
    · rw [if_pos hactive]
      exact hd
  all_goals exact h.elim

/-- The contents of a block that the thread does not journal, on its way. -/
structure Keeps (s : State) (t b : ℕ) (x : State) : Prop where
  blocks : x.store.journal.journalBlocks = s.store.journal.journalBlocks
  distinct : Distinct x.store
  running : (x.pc t).owns = true → staged x.store.running b = false
  same : Ext2.settledView x.store b = Ext2.settledView s.store b

/-- The merge keeps the contents of the blocks that were not journaled. -/
theorem settledView_stopStore {st : Store} {flushed : Bool} (hd : Distinct st)
    (hb : staged st.running b = false) (hout : OutsideLog m st.journal.journalBlocks b)
    (hok : st.ioFailed = false → flushed = true → (mergeRunning m st).1 = true) :
    Ext2.settledView (stopStore m flushed st) b = Ext2.settledView st b := by
  have hnone := Ext2.lookup_eq_none.mpr hb
  rw [stopStore]
  split_ifs with hfail hmerge
  · rfl
  · obtain ⟨-, heq⟩ | ⟨-, ⟨-, heq⟩ | ⟨hcommit, heq⟩ | heq⟩ := mergeRunning_cases m st <;> rw [heq]
    · rw [Ext2.settledView, Ext2.lookup_mergeEntries hd.2, hnone]
      rfl
    · rw [Ext2.settledView, Ext2.lookup_mergeEntries hd.2, hnone]
      exact Ext2.commitStore_disk hcommit hd.1 hout
    · rw [heq] at hmerge
      exact absurd hmerge false_ne_true
  · obtain ⟨hio, hflushed⟩ : st.ioFailed = false ∧ flushed = true := by simpa using hfail
    exact absurd (hok hio hflushed) hmerge

theorem settledView_commitStore {st : Store} (hd : Distinct st)
    (hout : OutsideLog m st.journal.journalBlocks b) (hok : (commitStore m st).1 = true) :
    Ext2.settledView (commitStore m st).2 b = Ext2.settledView st b :=
  Ext2.commitStore_disk hok hd.1 hout

theorem Keeps.of_store (h : Keeps s t b x) (hstore : y.store = x.store)
    (howns : (y.pc t).owns = true → (x.pc t).owns = true) : Keeps s t b y := by
  refine ⟨?_, ?_, fun ho => ?_, ?_⟩ <;> rw [hstore]
  exacts [h.blocks, h.distinct, h.running (howns ho), h.same]

theorem Keeps.of_owner (h : Keeps s t b x) (hd : Distinct y.store)
    (hblocks : y.store.journal.journalBlocks = x.store.journal.journalBlocks)
    (hrunning : staged y.store.running b = false)
    (hsame : Ext2.settledView y.store b = Ext2.settledView x.store b) : Keeps s t b y :=
  ⟨hblocks.trans h.blocks, hd, fun _ => hrunning, hsame.trans h.same⟩

theorem stopStore_blocks (m : Mount) (flushed : Bool) (st : Store) :
    (stopStore m flushed st).journal.journalBlocks = st.journal.journalBlocks ∧
      (stopStore m flushed st).running = [] := by
  have hj := (commitClosed_journal m st.journal st.closed st.disk).1
  rw [stopStore]
  split_ifs with _ hmerge
  · exact ⟨rfl, rfl⟩
  all_goals
    obtain ⟨hnil, heq⟩ | ⟨-, ⟨-, heq⟩ | ⟨-, heq⟩ | heq⟩ := mergeRunning_cases m st <;>
      rw [heq] at hmerge ⊢
  · exact ⟨rfl, hnil⟩
  · exact ⟨rfl, rfl⟩
  · exact ⟨hj, rfl⟩
  · exact absurd hmerge false_ne_true
  · exact absurd rfl hmerge
  · exact absurd rfl hmerge
  · exact absurd rfl hmerge
  · exact ⟨hj, rfl⟩

theorem staged_journalBlock {st : Store} {unchanged : Bool} {b' : ℕ} {image : Image}
    (hne : b' ≠ b) (hb : staged st.running b = false) :
    staged (journalBlock m unchanged st b' image).2.running b = false := by
  rw [staged_eq_false] at hb ⊢
  rcases journalBlock_cases m unchanged st b' image with
    ⟨_, heq⟩ | ⟨-, heq⟩ | ⟨-, -, -, heq⟩ | ⟨-, -, -, -, heq⟩ <;> rw [heq]
  · exact hb
  · rwa [map_fst_setImage]
  · exact hb
  · simpa [hne.symm] using hb

/-- **A step of the thread keeps the contents of the blocks that it does not journal.** -/
theorem Keeps.act (h : Keeps s t b x) (hplace : Place s t x (x.pc t)) (hd : Distinct y.store)
    (hout : OutsideLog m s.store.journal.journalBlocks b) (hcommits : Commits m x (.run t a))
    (ha : a ≠ .enter) (hb : ∀ unchanged image, a ≠ .block unchanged b image)
    (hact : act m x t a = some y) : Keeps s t b y := by
  rw [← h.blocks] at hout
  simp only [Ownership.act] at hact
  split at hact
  case h_1 => exact absurd rfl ha
  case h_19 => simp at hact
  all_goals
    rename_i hpc
    rw [hpc] at hplace
  case h_11 d =>
    cases hact
    exact h.of_owner hd rfl rfl rfl
  case h_12 d =>
    cases hact
    exact h.of_store rfl id
  case h_13 d unchanged b' image =>
    cases hact
    have hne : b' ≠ b := fun e => hb unchanged image (e ▸ rfl)
    have hspec := journalBlock_cases m unchanged x.store b' image
    refine h.of_owner hd ?_ (staged_journalBlock hne (h.running (by rw [hpc]; rfl))) ?_ <;>
      obtain ⟨_, heq⟩ | ⟨-, heq⟩ | ⟨-, -, -, heq⟩ | ⟨-, -, -, -, heq⟩ := hspec <;> rw [heq] <;> rfl
  case h_14 d flushed =>
    have hrun := h.running (by rw [hpc]; rfl)
    split_ifs at hact <;> cases hact
    · exact h.of_store rfl id
    · obtain ⟨hblocks, hnil⟩ := stopStore_blocks m flushed x.store
      refine h.of_owner hd hblocks ?_ (settledView_stopStore h.distinct hrun hout hcommits)
      show staged (stopStore m flushed x.store).running b = false
      rw [hnil]
      rfl
  case h_15 d fresh =>
    have hrun := h.running (by rw [hpc]; rfl)
    split_ifs at hact with hclosed hdefer <;> cases hact
    · exact h.of_store rfl fun _ => by rw [hpc]; rfl
    · exact h.of_owner hd rfl hrun rfl
    · have hj := (commitClosed_journal m x.store.journal x.store.closed x.store.disk).1
      refine h.of_owner hd hj hrun (settledView_commitStore h.distinct hout ?_)
      obtain ⟨hord, hdefer'⟩ | hok := hcommits
      · rw [hpc] at hord
        cases hord
        exact absurd hdefer' (by simpa using hdefer)
      · exact hok
  case h_16 deferred =>
    cases hact
    have hstore := (grantNext_frame { x.goto t (if deferred then .readCount else .outside) with
      store := discardRunning x.store, depth := 0 }).1
    refine h.of_owner hd ?_ ?_ ?_ <;> rw [hstore] <;> rfl
  all_goals
    first
    | exact hplace.elim
    | (try split_ifs at hact) <;> cases hact <;> exact h.of_store rfl (by
        rw [goto_pc_self]
        exact fun ho => absurd ho false_ne_true)

def Pc.rank (depth : ℕ) : Pc → ℕ
  | .handing false => 1
  | .stopping true => 2
  | .operation true => depth + 3
  | .acquired true => 5
  | .entering _ | .registered _ => 6
  | .readActive => 7
  | .readCount => 8
  | .handing true => 9
  | .stopping false => 10
  | .operation false => depth + 11
  | .acquired false => 13
  | _ => 0

/-- The thread can take a step that brings it nearer to its end. -/
theorem place_next (h : Place s t x (x.pc t)) (ht : t ≠ 0) (hpc : x.pc t ≠ .outside) : ∃ a y,
    a ≠ .enter ∧ act m x t a = some y ∧ (y.pc t).rank y.depth < (x.pc t).rank x.depth := by
  cases hp : x.pc t <;> rw [hp] at h
  case outside => exact absurd hp hpc
  case entering d =>
    obtain ⟨rfl, hidle, hl, -⟩ := h
    refine ⟨.tryAcquire, { x.goto t (.acquired true) with locked := true }, nofun, ?_, ?_⟩
    · simp [Ownership.act, hp, hidle, hl]
    · rw [goto_pc_self]
      simp [Pc.rank]
  case registered d =>
    obtain ⟨rfl, hidle, hl, hg⟩ := h
    refine ⟨.recheck, { x.goto t (.acquired true) with
      locked := true, waiters := x.waiters.erase t }, nofun, ?_, ?_⟩
    · simp [Ownership.act, hp, hidle, hl, hg, ht.symm]
    · rw [goto_pc_self]
      simp [Pc.rank]
  case acquired d =>
    refine ⟨.begin, { x.goto t (.operation d) with
      owner := t, active := true, depth := 1, store := startStore x.store }, nofun, ?_, ?_⟩
    · simp [Ownership.act, hp]
    · rw [goto_pc_self]
      cases d <;> simp [Pc.rank]
  case operation d =>
    by_cases hdepth : 1 < x.depth
    · refine ⟨.stop true, { x with depth := x.depth - 1 }, nofun, ?_, ?_⟩
      · simp [Ownership.act, hp, hdepth]
      · rw [hp]
        cases d <;> simp only [Pc.rank] <;> omega
    · refine ⟨.stop true, { x.goto t (.stopping d) with store := stopStore m true x.store },
        nofun, ?_, ?_⟩
      · simp [Ownership.act, hp, hdepth]
      · rw [goto_pc_self]
        cases d <;> simp only [Pc.rank] <;> omega
  case stopping d =>
    obtain ⟨p, st, hact, hend⟩ : ∃ p st, act m x t (.settle true) =
        some { x.goto t p with store := st } ∧ p.rank x.depth < (Pc.stopping d).rank x.depth := by
      simp only [Ownership.act, hp]
      split_ifs with hclosed hdefer
      · exact ⟨_, x.store, rfl, by cases d <;> simp [Pc.rank]⟩
      · cases d with
        | false => exact ⟨_, _, rfl, by simp [Pc.rank]⟩
        | true => simp at hdefer
      · exact ⟨_, _, rfl, by cases d <;> simp [Pc.rank]⟩
    refine ⟨.settle true, _, nofun, hact, ?_⟩
    rw [goto_pc_self]
    exact hend
  case handing deferred =>
    refine ⟨.finish, { x.goto t (if deferred then .readCount else .outside) with
      store := discardRunning x.store, depth := 0 }.grantNext, nofun, ?_, ?_⟩
    · simp [Ownership.act, hp]
    · rw [(grantNext_frame _).2.1, goto_pc_self]
      cases deferred <;> simp [Pc.rank]
  case readCount =>
    refine ⟨.readCount, x.goto t (if x.store.closed.isEmpty then .outside else .readActive),
      nofun, ?_, ?_⟩
    · simp [Ownership.act, hp]
    · rw [goto_pc_self]
      split <;> simp [Pc.rank]
  case readActive =>
    refine ⟨.readActive, x.goto t (if x.active then .outside else .entering true), nofun, ?_, ?_⟩
    · simp [Ownership.act, hp]
    · rw [goto_pc_self]
      split <;> simp [Pc.rank]
  all_goals exact h.elim

theorem act_dead (hact : act m x t a = some y) : y.dead = x.dead := by
  cases move_of_act hact with
  | finish | forward => exact (grantNext_frame _).2.2
  | _ => rfl

theorem distinct_grantNext (h : Distinct x.store) : Distinct x.grantNext.store := by
  rw [(grantNext_frame x).1]
  exact h

theorem distinct_act (h : Distinct x.store) (hact : act m x t a = some y) : Distinct y.store := by
  have hstop : ∀ flushed, Distinct (stopStore m flushed x.store) := fun flushed => by
    rw [stopStore]
    split_ifs
    exacts [h.discardRunning, h.mergeRunning, h.mergeRunning.discardRunning]
  have hforward : ∀ waiters, Distinct (forwardStore m waiters x.store) := fun waiters => by
    rw [forwardStore]
    split_ifs
    exacts [h.commitStore, h]
  simp only [Ownership.act] at hact
  split at hact
  case h_14 =>
    split_ifs at hact <;> cases hact
    exacts [h, hstop _]
  case h_15 =>
    split_ifs at hact <;> cases hact
    exacts [h, h, h.commitStore]
  case h_16 =>
    cases hact
    exact distinct_grantNext h.discardRunning
  all_goals (try split_ifs at hact) <;> cases hact
  case h_9 => exact hforward _
  case h_10 => exact distinct_grantNext h
  case h_11 => exact h.discardRunning
  case h_13 => exact h.journalBlock
  all_goals exact h

theorem run_own {rest : List Action}
    (hrun : runEvents m x ((a :: rest).map (.run t)) = some y) :
    ∃ x', x.dead t = false ∧ act m x t a = some x' ∧
      runEvents m x' (rest.map (.run t)) = some y ∧
      (Along (step m) (Commits m) x ((a :: rest).map (.run t)) →
        Commits m x (.run t a) ∧ Along (step m) (Commits m) x' (rest.map (.run t))) := by
  rw [List.map_cons, runEvents, run_cons] at hrun
  obtain ⟨x', hstep, hrest⟩ := bind_eq_some_iff.mp hrun
  obtain ⟨hlive, hact⟩ := ite_none_right_eq_some.mp hstep
  exact ⟨x', hlive.2, hact, hrest, fun h => ⟨h.head, h.tail hstep⟩⟩

theorem place_leaves (h : Place s t x (x.pc t)) (ht : t ≠ 0) (hlive : s.dead t = false)
    (hdead : x.dead = s.dead) : ∃ (rest : List Action) (y : State), Action.enter ∉ rest ∧
      runEvents m x (rest.map (.run t)) = some y ∧ y.pc t = .outside := by
  induction hn : (x.pc t).rank x.depth using Nat.strong_induction_on generalizing x with
  | h n ih =>
    by_cases hpc : x.pc t = .outside
    · exact ⟨[], x, by simp, rfl, hpc⟩
    obtain ⟨a, x', ha, hact, hlt⟩ := place_next (m := m) h ht hpc
    obtain ⟨rest, y, hrest, hrun, hy⟩ := ih _ (hn ▸ hlt) (h.act ht hdead ha hact)
      ((act_dead hact).trans hdead) rfl
    refine ⟨a :: rest, y, by simp [hrest, ha.symm], ?_, hy⟩
    have hstep : step m x (.run t a) = some x' := by
      rw [step, if_pos ⟨ht, hdead ▸ hlive⟩, hact]
    rw [List.map_cons, runEvents, run_cons, hstep]
    exact hrun

/-- The place of the thread, and the contents of a block, after steps of its own. -/
theorem Place.run {actions : List Action} (hp : Place s t x (x.pc t)) (ht : t ≠ 0)
    (hdead : x.dead = s.dead) (hd : Distinct x.store) (henter : Action.enter ∉ actions)
    (hrun : runEvents m x (actions.map (.run t)) = some y) :
    Place s t y (y.pc t) ∧ y.dead = s.dead ∧
      (Along (step m) (Commits m) x (actions.map (.run t)) → ∀ b,
        (∀ unchanged image, Action.block unchanged b image ∉ actions) →
        OutsideLog m s.store.journal.journalBlocks b → Keeps s t b x → Keeps s t b y) := by
  induction actions generalizing x with
  | nil =>
    cases hrun
    exact ⟨hp, hdead, fun _ _ _ _ hk => hk⟩
  | cons a rest ih =>
    obtain ⟨x', -, hact, hrest, halong⟩ := run_own hrun
    have hne := (List.ne_of_not_mem_cons henter).symm
    have hd' := distinct_act hd hact
    obtain ⟨hp', hdead', hk'⟩ := ih (hp.act ht hdead hne hact) ((act_dead hact).trans hdead) hd'
      (List.not_mem_of_not_mem_cons henter) hrest
    refine ⟨hp', hdead', fun hc b hb hout hk => ?_⟩
    obtain ⟨hcommit, hc⟩ := halong hc
    refine hk' hc b (fun u i hm => hb u i (List.mem_cons_of_mem _ hm)) hout ?_
    exact hk.act hp hd' hout hcommit hne (fun u i e => hb u i (e ▸ List.mem_cons_self)) hact

/-- **An assigned thread commits the closed set as soon as it runs.** -/
theorem drains_of_assigned (hexcl : Exclusive s) (hd : Distinct s.store) (ht : t ≠ 0)
    (hlive : s.dead t = false) (hidle : s.active = false) (hassigned : (s.pc t).assigned = true)
    (hlock : s.locked = true → ∃ d, s.pc t = .acquired d) : Drains m s t := by
  have hkeeps : ∀ b, Keeps s t b s := fun b => ⟨rfl, hd, fun ho => by
    exact absurd (hidle.symm.trans (hexcl.active_of_owns t ho)) false_ne_true, rfl⟩
  intro actions x henter hrun
  obtain ⟨hp, hdead, hk⟩ :=
    (place_of_assigned hexcl hidle hassigned hlock).run ht rfl hd henter hrun
  refine ⟨place_leaves hp ht hlive hdead, fun hpc => ⟨?_, fun hc b hb hout => ?_⟩⟩
  · rwa [hpc] at hp
  · exact (hk hc b hb hout (hkeeps b)).same

theorem distinct_step {e : Event} (h : Distinct x.store) (hstep : step m x e = some y) :
    Distinct y.store := by
  cases e with
  | run t a => exact distinct_act h (ite_none_right_eq_some.mp hstep).2
  | die t =>
    cases hstep
    exact h
  | cleanup t =>
    obtain ⟨-, he⟩ := ite_none_right_eq_some.mp hstep
    cases he
    exact h
  | release t =>
    obtain ⟨-, he⟩ := ite_none_right_eq_some.mp hstep
    cases he
    rw [State.releaseOwner]
    split_ifs
    exacts [distinct_grantNext h, distinct_grantNext h.discardRunning, h, h]

end Drains

/-! ## The lock is accounted for -/

namespace Pc

/-- The thread has an entry in the wait queue, unless it was granted the journal. -/
def queued : Pc → Bool
  | .registered _ | .parked _ => true
  | _ => false

/-- The thread has not left the loop of `ext3_journal_start`. -/
def waiting : Pc → Bool
  | .entering _ | .registered _ | .parked _ | .woken _ => true
  | _ => false

theorem waiting_of_queued (h : p.queued = true) : p.waiting = true ∧ p.holds = false := by
  cases p with
  | registered | parked => exact ⟨rfl, rfl⟩
  | _ => exact absurd h false_ne_true

end Pc

/-- Where the lock is: with the owner of an active journal, which is a holder or a grantee,
or with a live thread that is about to publish itself. -/
structure Accounted (s : State) : Prop where
  nodup : s.waiters.Nodup
  queued : ∀ w ∈ s.waiters, w ≠ 0 ∧ (s.pc w).queued = true
  granted : s.granted ≠ 0 → s.granted ∉ s.waiters ∧ (s.pc s.granted).waiting = true
  owner : s.active = true → s.owner ≠ 0 ∧ ((s.pc s.owner).holds = true ∨ s.granted = s.owner)
  locked : s.locked = true → s.active = true ∨ ∃ t, t ≠ 0 ∧ s.dead t = false ∧ (s.pc t).holds = true

/-- No thread dies between taking the free lock and publishing itself as the owner. -/
def Publishes (s : State) : Event → Prop
  | .die t => s.active = true ∨ (s.pc t).holds = false
  | _ => True

/-- The reaper hands the lock on to a live waiter, or frees it. -/
def PassedOn (m : Mount) (s : State) (t : ℕ) : Prop :=
  ∃ s1 s2, step m s (.cleanup t) = some s1 ∧ step m s1 (.release t) = some s2 ∧
    (s2.locked = false ∨ s2.granted ≠ 0 ∧ s2.dead s2.granted = false)

namespace Accounted

theorem fresh (j : Journal) (d : Disk) : Accounted (State.fresh j d) :=
  ⟨.nil, by simp [State.fresh], absurd rfl, nofun, nofun⟩

theorem queued_goto (h : Accounted s) (ht : t ∉ s.waiters) :
    ∀ w ∈ s.waiters, w ≠ 0 ∧ ((s.goto t p).pc w).queued = true := by
  intro w hw
  rw [goto_pc, if_neg (ne_of_mem_of_not_mem hw ht)]
  exact h.queued w hw

theorem not_mem_of_holds (h : Accounted s) (ht : (s.pc t).holds = true) : t ∉ s.waiters := by
  intro hmem
  exact false_ne_true ((Pc.waiting_of_queued (h.queued t hmem).2).2.symm.trans ht)

theorem grantNext (hnodup : s.waiters.Nodup)
    (hqueued : ∀ w ∈ s.waiters, w ≠ 0 ∧ (s.pc w).queued = true) (hg : s.granted = 0)
    (hact : s.active = true) : Accounted s.grantNext := by
  rw [State.grantNext]
  split
  · rename_i w hw
    obtain ⟨hw0, hpc⟩ := hqueued w (List.mem_of_find?_eq_some hw)
    exact ⟨hnodup.erase w, fun u hu => hqueued u (List.mem_of_mem_erase hu),
      fun _ => ⟨hnodup.not_mem_erase, (Pc.waiting_of_queued hpc).1⟩, fun _ => ⟨hw0, .inr rfl⟩,
      fun _ => .inl hact⟩
  · exact ⟨hnodup, hqueued, absurd hg, nofun, nofun⟩

theorem move (h : Accounted s) (hexcl : Exclusive s) (ht : t ≠ 0)
    (hholds : (s.pc t).holds = true) (hmove : Move s t s') : Accounted s' := by
  have hgranted := hexcl.granted_eq_zero hholds
  have hqueued := fun p => h.queued_goto (p := p) (h.not_mem_of_holds hholds)
  cases hmove with
  | free ws hfrom => exact absurd (hfrom.symm.trans hholds) false_ne_true
  | take hg => exact absurd (hg.symm.trans hgranted) ht
  | acquire d ws hl =>
    exact absurd ((hexcl.free_of_unlocked hl t).symm.trans hholds) false_ne_true
  | begin d st hfrom =>
    exact ⟨h.nodup, hqueued _, absurd hgranted, fun _ => ⟨ht, .inl (by rw [goto_pc_self]; rfl)⟩,
      fun _ => .inl rfl⟩
  | @work p st depth hfrom hp =>
    have hp := Pc.holds_of_owns hp
    have hact := hexcl.active_of_owns t hfrom
    refine ⟨h.nodup, hqueued _, absurd hgranted, fun _ => ?_, fun _ => .inl hact⟩
    obtain rfl := hexcl.owner_eq t hholds hact
    exact ⟨ht, .inl ((congrArg Pc.holds goto_pc_self).trans hp)⟩
  | finish deferred hfrom =>
    exact grantNext h.nodup (hqueued _) hgranted (hexcl.active_of_owns t (by rw [hfrom]; rfl))
  | forward hfrom =>
    exact grantNext h.nodup (hqueued _) hgranted (hexcl.active_of_owns t (by rw [hfrom]; rfl))

/-- A step without the lock; `ws` is the wait queue after it. -/
theorem free {ws : List ℕ} (h : Accounted s) (hfrom : (s.pc t).holds = false) (hnodup : ws.Nodup)
    (hsub : ∀ w ∈ ws, w ≠ t → w ∈ s.waiters) (ht : t ∈ ws → t ≠ 0 ∧ p.queued = true)
    (hwait : s.granted ≠ 0 → s.granted = t → t ∉ ws ∧ p.waiting = true) :
    Accounted { s.goto t p with waiters := ws } := by
  obtain ⟨-, hqueued, hgranted, hown, hlocked⟩ := h
  refine ⟨hnodup, ?_, ?_, ?_, ?_⟩ <;> simp only [State.goto, update_apply] <;> grind

theorem keep (h : Accounted s) (hfrom : (s.pc t).holds = false)
    (hqueued : (s.pc t).queued = true → p.queued = true)
    (hwait : s.granted = t → (s.pc t).waiting = true → p.waiting = true) :
    Accounted (s.goto t p) := by
  refine h.free hfrom h.nodup (fun _ hm _ => hm) (fun hm => ?_) fun hg hgt => ?_
  · exact (h.queued t hm).imp_right hqueued
  · obtain ⟨hmem, hw⟩ := h.granted hg
    rw [hgt] at hmem hw
    exact ⟨hmem, hwait hgt hw⟩

theorem leave (h : Accounted s) (hfrom : (s.pc t).holds = false) (hp : p.waiting = true) :
    Accounted { s.goto t p with waiters := s.waiters.erase t } :=
  h.free hfrom (h.nodup.erase t) (fun _ hm _ => List.mem_of_mem_erase hm)
    (fun hm => absurd hm h.nodup.not_mem_erase) fun _ _ => ⟨h.nodup.not_mem_erase, hp⟩

theorem take (h : Accounted s) (hexcl : Exclusive s) (ht : t ≠ 0) (hg : s.granted = t)
    (hp : p.holds = true) : Accounted { s.goto t p with granted := 0 } := by
  subst hg
  obtain ⟨hact, howner, -⟩ := hexcl.pending ht
  refine ⟨h.nodup, h.queued_goto (h.granted ht).1, absurd rfl, fun _ => ?_, fun _ => .inl hact⟩
  exact ⟨howner ▸ ht, .inl (by simp [State.goto, howner, hp])⟩

theorem acquire {ws : List ℕ} (h : Accounted s) (hexcl : Exclusive s) (ht : t ≠ 0)
    (hlive : s.dead t = false) (hp : p.holds = true) (hact : s.active = false)
    (hnodup : ws.Nodup) (hsub : ∀ w ∈ ws, w ≠ t ∧ w ∈ s.waiters) :
    Accounted { s.goto t p with locked := true, waiters := ws } := by
  refine ⟨hnodup, fun w hw => ?_, fun hg => ?_, fun ha => ?_, fun _ => .inr ⟨t, ht, hlive, ?_⟩⟩
  · simpa [State.goto, (hsub w hw).1] using h.queued w (hsub w hw).2
  · exact absurd (hact.symm.trans (hexcl.pending hg).1) false_ne_true
  · exact absurd (hact.symm.trans ha) false_ne_true
  · exact (congrArg Pc.holds goto_pc_self).trans hp

theorem act (h : Accounted s) (hexcl : Exclusive s) (ht : t ≠ 0) (hlive : s.dead t = false)
    (hact : act m s t a = some s') : Accounted s' := by
  by_cases hholds : (s.pc t).holds = true
  · exact h.move hexcl ht hholds (move_of_act hact)
  simp only [Ownership.act] at hact
  have hfrom : (s.pc t).holds = false := by simpa using hholds
  split at hact
  case h_2 d hpc =>
    split_ifs at hact with hg
    cases hact
    exact h.take hexcl ht hg rfl
  case h_3 d hpc =>
    split_ifs at hact with hfree
    cases hact
    refine h.acquire hexcl ht hlive rfl hfree.1 h.nodup fun w hw => ⟨?_, hw⟩
    rintro rfl
    simpa [hpc, Pc.queued] using (h.queued w hw).2
  case h_4 d hpc =>
    split_ifs at hact with hg
    cases hact
    have hmem : t ∉ s.waiters := fun hm => by simpa [hpc, Pc.queued] using (h.queued t hm).2
    refine h.free hfrom (h.nodup.append (List.nodup_singleton t) ?_) ?_ ?_ ?_
    · simpa using hmem
    · simp +contextual [or_imp]
    · exact fun _ => ⟨ht, rfl⟩
    · exact fun _ hgt => absurd hgt hg
  case h_5 d hpc =>
    split_ifs at hact with hg hactive hlocked <;> cases hact
    · exact h.take hexcl ht hg rfl
    · exact h.keep hfrom (fun _ => rfl) fun _ _ => rfl
    · exact h.leave hfrom rfl
    · exact h.acquire hexcl ht hlive rfl (by simpa using hactive) (h.nodup.erase t)
        fun w hw => h.nodup.mem_erase_iff.mp hw
  case h_6 d hpc =>
    cases hact
    exact h.leave hfrom rfl
  case h_8 d hpc =>
    split_ifs at hact with hg <;> cases hact
    · exact h.take hexcl ht hg rfl
    · exact h.keep hfrom (by simp [hpc, Pc.queued]) fun hgt => absurd hgt hg
  case h_19 => cases hact
  -- the holder's steps were dealt with, and no other step touches the queue
  all_goals
    rename_i hpc
    first
    | exact absurd (by rw [hpc]; rfl) hholds
    | (try split_ifs at hact) <;> cases hact <;>
        exact h.keep hfrom (by simp [hpc, Pc.queued]) (by simp [hpc, Pc.waiting])

theorem release (h : Accounted s) (hexcl : Exclusive s) (hdead : s.dead t = true)
    (ht : t ∉ s.waiters) : Accounted ((s.goto t .outside).releaseOwner t) := by
  have hpend := hexcl.pending
  rw [State.releaseOwner]
  split_ifs with howner hg hl
  · exact grantNext h.nodup (h.queued_goto ht) rfl howner.1
  · exact grantNext h.nodup (h.queued_goto ht) (by grind [State.goto]) howner.1
  · exact absurd (hexcl.locked_of_active howner.1) hl
  -- the thread had nothing of the journal
  · obtain ⟨hnodup, hqueued, hgranted, hown, hlocked⟩ := h
    refine ⟨hnodup, ?_, ?_, ?_, ?_⟩ <;> simp only [State.goto, update_apply] at * <;> grind

theorem step {e : Event} (h : Accounted s) (hexcl : Exclusive s) (hpub : Publishes s e)
    (hstep : step m s e = some s') : Accounted s' := by
  cases e with
  | run t a =>
    obtain ⟨hrun, hact⟩ := ite_none_right_eq_some.mp hstep
    exact h.act hexcl hrun.1 hrun.2 hact
  | die t =>
    cases hstep
    refine { h with locked := fun hl => ?_ }
    obtain hact | ⟨u, hu, hdead, hpc⟩ := h.locked hl
    · exact .inl hact
    refine hpub.imp id fun hfree => ⟨u, hu, ?_, hpc⟩
    have hne : u ≠ t := by
      rintro rfl
      exact false_ne_true (hfree.symm.trans hpc)
    simpa [hne] using hdead
  | cleanup t =>
    obtain ⟨-, he⟩ := ite_none_right_eq_some.mp hstep
    cases he
    exact { h with
      nodup := h.nodup.filter _
      queued := fun w hw => h.queued w (List.mem_of_mem_filter hw)
      granted := fun hg =>
        ⟨fun hm => (h.granted hg).1 (List.mem_of_mem_filter hm), (h.granted hg).2⟩ }
  | release t =>
    obtain ⟨hrun, he⟩ := ite_none_right_eq_some.mp hstep
    cases he
    exact h.release hexcl hrun.1 hrun.2.1

theorem passedOn (h : Accounted s) (ht : t ≠ 0) (hdead : s.dead t = true)
    (hact : s.active = true) (howner : s.owner = t) : PassedOn m s t := by
  refine ⟨_, _, if_pos hdead, if_pos ⟨hdead, by simp, ht⟩, ?_⟩
  have hpass (s1 : State) (hw : s1.waiters = s.waiters.filter (· ≠ t)) :
      s1.grantNext.locked = false ∨
        s1.grantNext.granted ≠ 0 ∧ s1.grantNext.dead s1.grantNext.granted = false := by
    rw [State.grantNext]
    split
    · rename_i w hfind
      have hmem := List.mem_of_find?_eq_some hfind
      rw [hw] at hmem
      exact .inr ⟨(h.queued w (List.mem_of_mem_filter hmem)).1,
        by simpa using List.find?_some hfind⟩
    · exact .inl rfl
  rw [State.releaseOwner]
  split_ifs with hown hg hl
  · exact hpass _ rfl
  · exact hpass _ rfl
  · exact .inl (by simpa using hl)
  · exact absurd ⟨hact, howner⟩ hown

end Accounted

theorem reaches_of_run {P : State → Event → Prop} {es : List Event}
    (hP : ∀ e ∈ es, ∀ s, P s e) (hrun : runEvents m s es = some s') :
    Relation.ReflTransGen (fun s s' => ∃ e, P s e ∧ step m s e = some s') s s' := by
  induction es generalizing s with
  | nil => rw [← some.inj hrun]
  | cons e es ih =>
    rw [runEvents, run_cons] at hrun
    obtain ⟨s1, hstep, hrun⟩ := bind_eq_some_iff.mp hrun
    have htail := ih (fun e' he' => hP e' (List.mem_cons_of_mem _ he')) hrun
    exact htail.head ⟨e, hP e List.mem_cons_self s, hstep⟩

namespace Handover

open WrappedLog (mount ones)

/-- Thread 1 stops with thread 2 in the queue, and defers the commit of block 90. -/
def deferring : List Event :=
  [.run 1 .enter, .run 1 .tryAcquire, .run 1 .begin, .run 1 (.block false 90 ones),
    .run 2 .enter, .run 2 .register, .run 2 .recheck, .run 1 (.stop true), .run 1 (.settle true)]

/-- Thread 2 is interrupted before thread 1 selects a successor. -/
def interrupted : List Event :=
  deferring ++ [.run 2 .wake, .run 2 .cancel, .run 1 .finish]

/-- Thread 2 is killed after it was granted the journal. -/
def killed : List Event :=
  deferring ++ [.run 1 .finish, .run 1 .readCount, .run 1 .readActive, .die 2, .cleanup 2,
    .release 2]

/-- Thread 1 is killed with the free lock just taken. -/
def orphaned : List Event :=
  [.run 1 .enter, .run 1 .tryAcquire, .die 1, .cleanup 1, .release 1]

def start : State := .fresh (SmallLog.journal 60) (SmallLog.disk 60)

theorem interrupted_idle : ∃ s, runEvents mount start interrupted = some s ∧
    s.active = false ∧ s.store.closed.map Prod.fst = [90] ∧ s.pc 1 = .readCount := by
  exact ⟨_, rfl, by decide, by decide, by decide⟩

theorem killed_idle : ∃ s, runEvents mount start killed = some s ∧
    s.active = false ∧ s.store.closed.map Prod.fst = [90] ∧ ∀ t, s.pc t = .outside := by
  refine ⟨_, rfl, by decide, by decide, ?_⟩
  rintro (_ | _ | _ | t) <;> rfl

end Handover

theorem CarefulReach.distinct {j : Journal} {d : Disk} (h : CarefulReach m j d s) :
    Distinct s.store := by
  induction h with
  | refl => exact ⟨.nil, .nil⟩
  | tail _ hstep ih =>
    obtain ⟨e, -, hstep⟩ := hstep
    exact distinct_step ih hstep

/-- **A quiescent journal has nothing uncommitted in its closed set.**  When the journal is
inactive the closed set is empty, or a live thread inside `ext3_journal_start` or
`ext3_journal_stop` commits it as soon as it runs. -/
theorem idle_journal_assigned {m : Mount} {j : Journal} {d : Disk} {s : State}
    (hreach : CarefulReach m j d s) (hidle : s.active = false) :
    s.store.closed = [] ∨ ∃ t, t ≠ 0 ∧ s.dead t = false ∧ s.pc t ≠ .outside ∧ Drains m s t := by
  obtain ⟨hexcl, hcover⟩ := hreach.covered
  rcases hcover hidle with hnil | ⟨t, ht, hlive, hassigned, hlock⟩
  · exact .inl hnil
  refine .inr ⟨t, ht, hlive, ?_, ?_⟩
  · intro hout
    rw [hout] at hassigned
    exact false_ne_true hassigned
  · exact drains_of_assigned hexcl hreach.distinct ht hlive hidle hassigned hlock

open Handover

theorem idle_journal_assigned_interrupted : ∃ s : State,
    CarefulReach mount (SmallLog.journal 60) (SmallLog.disk 60) s ∧
    s.active = false ∧ s.store.closed ≠ [] ∧
    ∃ t, t ≠ 0 ∧ s.dead t = false ∧ s.pc t ≠ .outside ∧ Drains mount s t := by
  obtain ⟨s, hrun, hidle, hclosed, -⟩ := interrupted_idle
  have hne : s.store.closed ≠ [] := by
    intro hnil
    rw [hnil] at hclosed
    exact absurd hclosed (by decide)
  have hreach : CarefulReach mount (SmallLog.journal 60) (SmallLog.disk 60) s := by
    refine reaches_of_run ?_ hrun
    simp [interrupted, deferring, Careful]
  exact ⟨s, hreach, hidle, hne, (idle_journal_assigned hreach hidle).resolve_left hne⟩

/-- An inactive journal can hold a chain.  When the only waiter is interrupted between the
decision to defer and the hand-over, the stopping thread has still to close the chain; when
the waiter is killed with the grant, every thread has left and nobody does. -/
theorem idle_journal_holds_chain : initJournal mount (SmallLog.disk 60) =
      (some (SmallLog.journal 60), SmallLog.disk 60) ∧
    (∃ s, runEvents mount start interrupted = some s ∧
      s.active = false ∧ s.store.closed.map Prod.fst = [90] ∧ s.pc 1 = .readCount) ∧
    ∃ s, runEvents mount start killed = some s ∧
      s.active = false ∧ s.store.closed.map Prod.fst = [90] ∧ ∀ t, s.pc t = .outside :=
  ⟨SmallLog.mount_disk (by decide) (by decide), interrupted_idle, killed_idle⟩

/-- **The journal has exactly one accountable owner.**  At most one thread holds the lock,
and when it is held a thread holds it or waits in `ext3_journal_start` with the grant; if
that thread is dead, the reaper passes the lock on. -/
theorem lock_accounted {m : Mount} {j : Journal} {d : Disk} {s : State}
    (hreach : Relation.ReflTransGen
      (fun s s' => ∃ e, Publishes s e ∧ step m s e = some s') (State.fresh j d) s) :
    (∀ t u, (s.pc t).holds = true → (s.pc u).holds = true → t = u) ∧
    (s.locked = true → ∃ t, t ≠ 0 ∧
      ((s.pc t).holds = true ∨ s.granted = t ∧ (s.pc t).waiting = true) ∧
      (s.dead t = false ∨ PassedOn m s t)) := by
  have hinv : Exclusive s ∧ Accounted s := by
    induction hreach with
    | refl => exact ⟨.fresh j d, .fresh j d⟩
    | tail _ hstep ih =>
      obtain ⟨e, hpub, hstep⟩ := hstep
      exact ⟨ih.1.step hstep, ih.2.step ih.1 hpub hstep⟩
  obtain ⟨hexcl, h⟩ := hinv
  refine ⟨hexcl.unique, fun hl => ?_⟩
  obtain hact | ⟨t, ht, hdead, hpc⟩ := h.locked hl
  · obtain ⟨h0, hpc⟩ := h.owner hact
    refine ⟨s.owner, h0, hpc.imp id fun hg => ⟨hg, ?_⟩, ?_⟩
    · rw [← hg] at h0 ⊢
      exact (h.granted h0).2
    · cases hdead : s.dead s.owner with
      | false => exact .inl rfl
      | true => exact .inr (h.passedOn h0 hdead hact rfl)
  · exact ⟨t, ht, .inl hpc, .inl hdead⟩

theorem lock_accounted_granted : ∃ s : State, s.locked = true ∧
    ∃ t, t ≠ 0 ∧ ((s.pc t).holds = true ∨ s.granted = t ∧ (s.pc t).waiting = true) ∧
      (s.dead t = false ∨ PassedOn mount s t) := by
  obtain ⟨s, hrun, hl⟩ : ∃ s, runEvents mount start (deferring ++ [.run 1 .finish]) = some s ∧
      s.locked = true := ⟨_, rfl, rfl⟩
  refine ⟨s, hl, (lock_accounted (reaches_of_run ?_ hrun)).2 hl⟩
  simp [deferring, Publishes]

/-- A thread that dies before it publishes itself leaves the lock held and nobody inside; a
grantee that is not yet reaped can be dead. -/
theorem lock_stranded :
    (∃ s, runEvents mount start orphaned = some s ∧ s.locked = true ∧ s.granted = 0 ∧
      ∀ t, s.pc t = .outside) ∧
    ∃ s, runEvents mount start (deferring ++ [.run 1 .finish, .die 2]) = some s ∧
      s.locked = true ∧ s.granted = 2 ∧ s.dead 2 = true ∧ ∀ t, (s.pc t).holds = false := by
  refine ⟨⟨_, rfl, rfl, rfl, ?_⟩, _, rfl, rfl, rfl, rfl, ?_⟩
  · rintro (_ | _ | t) <;> rfl
  · rintro (_ | _ | _ | t) <;> rfl

end AvoryOS.Ext3.Ownership
