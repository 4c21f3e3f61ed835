import AvoryOS.Lib.Transition
import Mathlib.Data.Int.Notation
import Mathlib.Logic.Function.Basic
import Mathlib.Tactic.SplitIfs

/-!
# Priority-inheritance futexes

One futex word, the calls `futex_pi_lock` and `futex_pi_unlock` on it, and user space, which
changes the word only from `0` to its thread id and back.  A step is an access to the word, a
check whether a thread is gone, or a section under the lock of the bucket.  A thread that is marked
`THREAD_DEAD` while it runs goes on until it is descheduled, and overwrites the mark if it blocks.
`holds` is not part of the code: a thread holds the word from its acquisition, or the hand-over to
it, to its release.
-/

namespace AvoryOS.Futex.Pi

open Function Transition List Option

/-- The owner, `FUTEX_WAITERS` and `FUTEX_OWNER_DIED`. -/
structure Word where
  owner : ℕ
  (waiters died : Bool)
  deriving DecidableEq

/-- A call of `futex_pi_lock`, and whether its thread owned the word then. -/
structure Call where
  (trylock timed owned : Bool)
  deriving DecidableEq

inductive Pc
  | user
  -- `futex_pi_lock`
  | load (c : Call)
  | gone (c : Call) (cur : Word)
  | swap (c : Call) (cur : Word) (died : Bool)
  | mark (c : Call)
  | setMark (c : Call) (cur : Word)
  | enqueue (c : Call)
  | parked (c : Call)
  | awake (c : Call)
  | done (c : Call) (r : ℤ)
  -- `futex_pi_unlock`
  | unlock
  | release
  | unlocked (r : ℤ)
  deriving DecidableEq

structure State where
  word : Word
  /-- The threads of the waiters on the word, in the order of the bucket. -/
  queue : List ℕ
  acquired : ℕ → Bool
  pc : ℕ → Pc
  alive : ℕ → Bool
  holds : ℕ → Bool

inductive Act
  | userLock
  | userUnlock
  /-- The call of `futex_pi_lock`, or the error of its arguments. -/
  | callLock (trylock timed : Bool) (err : Option ℤ)
  | callUnlock
  /-- The next step of a call; `b` says whether the time is over, or whether there is a signal. -/
  | go (b : Bool)
  | wake
  | exit
  /-- `futex_remove_thread_waiters`. -/
  | reap
  deriving DecidableEq

namespace State

variable (s : State) (t : ℕ)

def goto (p : Pc) : State := { s with pc := update s.pc t p }

/-- `futex_pi_owner_gone`. -/
abbrev Gone (owner : ℕ) : Prop := owner = 0 ∨ s.alive owner = false

/-- `THREAD_BLOCKED`. -/
def blocked : Bool :=
  match s.pc t with
  | .parked _ => s.alive t
  | _ => false

def take (w : Word) : State := { s with word := w, holds := update s.holds t true }

/-- The section of `futex_pi_unlock`. -/
def handOver : State :=
  match s.queue.find? s.blocked with
  | none => { s with word := ⟨0, false, false⟩, holds := update s.holds t false }
  | some w =>
    { s with
      word := ⟨w, (s.queue.erase w).any s.blocked, false⟩
      queue := s.queue.erase w
      acquired := update s.acquired w true
      holds := update (update s.holds t false) w true }

end State

def next (s : State) (t : ℕ) (b : Bool) : Pc → Option State
  | .load c =>
    some (s.goto t (if s.word.owner = t then .done c (-35)
      else if s.word.owner = 0 then .swap c s.word false
      else .gone c s.word))
  | .gone c cur =>
    some (s.goto t (if s.Gone cur.owner then .swap c cur true
      else if c.trylock then .done c (-11)
      else if c.timed && b then .done c (-110)
      else .mark c))
  | .swap c cur died =>
    if s.word = cur then some ((s.take t ⟨t, cur.waiters, died⟩).goto t (.done c 0))
    else some (s.goto t (.load c))
  | .mark c => some (s.goto t (if s.word.waiters then .enqueue c else .setMark c s.word))
  | .setMark c cur =>
    if s.word = cur then some ({ s with word := { cur with waiters := true } }.goto t (.enqueue c))
    else some (s.goto t (.mark c))
  | .enqueue c =>
    if s.word.owner = t ∨ s.Gone s.word.owner then some (s.goto t (.load c))
    else if c.timed && b then
      some ({ s with alive := update s.alive t true }.goto t (.done c (-110)))
    else
      some ({ s with
        queue := s.queue ++ [t]
        alive := update s.alive t true
        acquired := update s.acquired t false }.goto t (.parked c))
  | .awake c =>
    some ({ s with queue := s.queue.erase t }.goto t (if s.acquired t then .done c 0
      else if b then .done c (-4)
      else if c.timed then .done c (-110)
      else .load c))
  | .unlock => some (s.goto t (if s.word.owner = t then .release else .unlocked (-1)))
  | .release => some ((s.handOver t).goto t (.unlocked 0))
  | .done _ _ | .unlocked _ => some (s.goto t .user)
  | .user | .parked _ => none

def step (s : State) : ℕ × Act → Option State
  | (t, .exit) => some { s with alive := update s.alive t false }
  | (t, .reap) =>
    if s.alive t = false then some { s with queue := s.queue.filter (· ≠ t) } else none
  | (t, .wake) =>
    match s.pc t with
    | .parked c => if s.alive t then some (s.goto t (.awake c)) else none
    | _ => none
  | (t, .go b) => next s t b (s.pc t)
  | (t, a) =>
    if s.pc t = .user then
      match a with
      | .userLock =>
        if s.word = ⟨0, false, false⟩ then some (s.take t ⟨t, false, false⟩) else some s
      | .userUnlock =>
        if s.word = ⟨t, false, false⟩ then
          some { s with word := ⟨0, false, false⟩, holds := update s.holds t false }
        else some s
      | .callLock trylock timed err =>
        let c : Call := ⟨trylock, timed, s.word.owner = t⟩
        match err with
        | none => some (s.goto t (.load c))
        | some e => if e = 0 then none else some (s.goto t (.done c e))
      | _ => some (s.goto t .unlock)
    else none

/-- The word is free, and no thread is in a call; no thread has the id `0`. -/
structure Initial (s : State) : Prop where
  word : s.word = ⟨0, false, false⟩
  queue : s.queue = []
  pc : ∀ t, s.pc t = .user
  holds : ∀ t, s.holds t = false
  zero : s.alive 0 = false

/-! ## The bit for waiters -/

/-- A thread is queued only while the bit is set, and a hand-over leaves a live thread in the queue
only if it leaves a blocked one there, so that the bit stays. -/
def Careful (s : State) (e : ℕ × Act) : Prop :=
  match s.pc e.1, e.2 with
  | .enqueue _, .go _ => ¬ s.Gone s.word.owner → s.word.waiters = true
  | .release, .go _ =>
    let rest := s.queue.eraseP s.blocked
    rest.any s.alive → rest.any s.blocked
  | _, _ => True

instance (s : State) (e : ℕ × Act) : Decidable (Careful s e) := by
  unfold Careful
  split <;> infer_instance

/-- The bit is set while a live thread is queued. -/
def Marked (s : State) : Prop := ∀ t ∈ s.queue, s.alive t = true → s.word.waiters = true

variable {s s' : State} {t : ℕ} {e : ℕ × Act} {es : List (ℕ × Act)} {b : Bool}

/-- The first thread that is found is the one that is taken out. -/
theorem erase_eq_eraseP {xs : List ℕ} {P : ℕ → Bool} {x : ℕ} (h : xs.find? P = some x) :
    xs.erase x = xs.eraseP P := by
  obtain ⟨hx, as, bs, rfl, has⟩ := find?_eq_some_iff_append.mp h
  have hnot : x ∉ as := fun hmem => by simpa [hx] using has x hmem
  rw [erase_append_right _ hnot, eraseP_append_right _ (by simpa using has)]
  simp [hx]

theorem Marked.handOver
    (hc : (s.queue.eraseP s.blocked).any s.alive → (s.queue.eraseP s.blocked).any s.blocked) :
    Marked (s.handOver t) := by
  intro u hu hl
  cases hf : s.queue.find? s.blocked with
  | none =>
    simp only [State.handOver, hf] at hu hl
    rw [eraseP_of_forall_not (find?_eq_none.mp hf)] at hc
    obtain ⟨w, hw, hb⟩ := any_eq_true.mp (hc (any_eq_true.mpr ⟨u, hu, hl⟩))
    exact absurd hb (find?_eq_none.mp hf w hw)
  | some w =>
    simp only [State.handOver, hf, erase_eq_eraseP hf] at hu hl ⊢
    exact hc (any_eq_true.mpr ⟨u, hu, hl⟩)

theorem Marked.step (h : Marked s) (hc : Careful s e) (he : step s e = some s') : Marked s' := by
  obtain ⟨t, a⟩ := e
  cases a with
  | go b =>
    simp only [step] at he
    cases hp : s.pc t with
    | release =>
      simp only [hp, Careful] at he hc
      cases he
      exact Marked.handOver hc
    | load | gone | mark | done | unlock | unlocked =>
      simp only [hp] at he
      cases he
      exact h
    | awake =>
      simp only [hp] at he
      cases he
      exact fun u hu hl => h u (mem_of_mem_erase hu) hl
    | _ =>
      simp only [hp, next, Careful] at he hc
      grind [Marked, State.goto, State.take]
  | exit =>
    cases he
    exact fun u hu hl => h u hu (by grind)
  | _ =>
    simp only [step] at he
    grind [Marked, State.goto, State.take]

/-- **The bit is set while a live thread is queued**, if no thread is queued or left behind
without it. -/
theorem waiters_bit_set (h : Initial s) (hc : Along step Careful s es)
    (hr : run step s es = some s') {t : ℕ} (ht : t ∈ s'.queue) (hl : s'.alive t = true) :
    s'.word.waiters = true := by
  refine run_invariant Marked (fun s e s' h hc he => h.step hc he) ?_ hc hr t ht hl
  intro t ht
  rw [h.queue] at ht
  cases ht

/-- The word is free, and every thread is alive. -/
def free : State :=
  ⟨⟨0, false, false⟩, [], fun _ => false, fun _ => .user, fun t => t ≠ 0, fun _ => false⟩

theorem initial_free : Initial free := ⟨rfl, rfl, fun _ => rfl, fun _ => rfl, rfl⟩

/-- The second thread waits for the first. -/
def contended : List (ℕ × Act) :=
  [(1, .userLock), (2, .callLock false false none)] ++ replicate 5 (2, .go false)

theorem waiters_bit_set_contended : ∃ s', run step free contended = some s' ∧
    2 ∈ s'.queue ∧ s'.word.owner = 1 ∧ s'.word.waiters = true := by
  have hsome : (run step free contended).isSome := by decide
  have hq : 2 ∈ (get _ hsome).queue := by decide +revert
  refine ⟨_, (some_get hsome).symm, hq, by decide +revert, ?_⟩
  exact waiters_bit_set initial_free (by decide) (some_get hsome).symm hq rfl

/-- The first thread releases the word, and the third takes it, between the second's setting the
bit and its section. -/
def overtaken : List (ℕ × Act) :=
  [(1, .userLock), (2, .callLock false false none)] ++ replicate 4 (2, .go false) ++
    [(1, .callUnlock), (1, .go false), (1, .go false), (3, .userLock), (2, .go false)]

/-- The second thread, awake but in the queue still, is not blocked: the word is cleared. -/
def leftBehind : List (ℕ × Act) :=
  contended ++ [(2, .wake), (1, .callUnlock), (1, .go false), (1, .go false), (3, .userLock)]

/-- A live thread is queued without the bit after the events, and the owner releases the word past
it in user space. -/
def Overtakes (es : List (ℕ × Act)) : Prop := ∃ s s', run step free es = some s ∧
  2 ∈ s.queue ∧ s.alive 2 = true ∧ s.alive 3 = true ∧ s.word = ⟨3, false, false⟩ ∧
    step s (3, .userUnlock) = some s' ∧ 2 ∈ s'.queue ∧ s'.word = ⟨0, false, false⟩

theorem queued_without_bit : Overtakes overtaken ∧ Overtakes leftBehind := by
  have h : ∀ es ∈ [overtaken, leftBehind], Overtakes es := by
    intro es hes
    have hsome : (run step free es).isSome := by revert es; decide
    have hnext : (step (get _ hsome) (3, .userUnlock)).isSome := by revert es; decide
    refine ⟨_, _, (some_get hsome).symm, ?_, ?_, ?_, ?_, (some_get hnext).symm, ?_, ?_⟩ <;>
      revert es <;> decide
  exact ⟨h _ (.head _), h _ (.tail _ (.head _))⟩

/-! ## The holder -/

/-- The waiter is on the stack of the thread. -/
@[grind] def Pc.Waits : Pc → Prop
  | .parked _ | .awake _ => True
  | _ => False

/-- What the place of a live thread says about the word it owns or not. -/
@[grind] def Pc.Owns (alive : ℕ → Bool) (own : Prop) (acquired : Bool) : Pc → Prop
  | .load c => own ↔ c.owned = true
  | .swap c cur _ => ¬ own ∧ c.owned = false ∧ (cur.owner = 0 ∨ alive cur.owner = false)
  | .gone c _ | .mark c | .setMark c _ | .enqueue c => ¬ own ∧ c.owned = false
  | .parked c | .awake c => (own ↔ acquired = true) ∧ c.owned = false
  | .done c r => (r = 0 ↔ own ∧ c.owned = false) ∧ (c.owned = true → own)
  | .release => own
  | _ => True

theorem Pc.Owns.exit {alive own acquired} {p : Pc} (h : p.Owns alive own acquired) :
    p.Owns (update alive t false) own acquired := by
  cases p <;> grind

/-- A thread that is marked takes no step of its own. -/
def Stops (s : State) (e : ℕ × Act) : Prop :=
  match e.2 with
  | .exit | .reap => True
  | _ => s.alive e.1 = true

instance (s : State) (e : ℕ × Act) : Decidable (Stops s e) := by
  unfold Stops
  split <;> infer_instance

@[grind cases] structure Inv (s : State) : Prop where
  holds : ∀ t, s.alive t = true → (s.holds t = true ↔ s.word.owner = t)
  owns : ∀ t, s.alive t = true → (s.pc t).Owns s.alive (s.word.owner = t) (s.acquired t)
  nodup : s.queue.Nodup
  queued : ∀ t ∈ s.queue, s.alive t = true → (s.pc t).Waits
  pos : ∀ t, s.alive t = true → 0 ≠ t

theorem Inv.handOver (h : Inv s) (hl : s.alive t = true) (hp : s.pc t = .release) :
    Inv ((s.handOver t).goto t (.unlocked 0)) := by
  cases hf : s.queue.find? s.blocked with
  | none =>
    simp only [State.handOver, hf]
    refine ⟨?_, ?_, ?_, ?_, ?_⟩ <;> simp only [State.goto] <;>
      grind [Nodup.mem_erase_iff]
  | some w =>
    obtain ⟨c, hpw, hlw⟩ : ∃ c, s.pc w = .parked c ∧ s.alive w = true := by
      grind [State.blocked]
    simp only [State.handOver, hf]
    refine ⟨?_, ?_, ?_, ?_, ?_⟩ <;> simp only [State.goto] <;>
      grind [Nodup.mem_erase_iff]

theorem Inv.goto (h : Inv s) (hl : s.alive t = true) {p : Pc} (hq : (s.pc t).Waits → p.Waits)
    (hp : p.Owns s.alive (s.word.owner = t) (s.acquired t)) : Inv (s.goto t p) := by
  refine ⟨h.holds, ?_, h.nodup, ?_, h.pos⟩ <;> simp only [State.goto] <;> grind

theorem Inv.next (h : Inv s) (hl : s.alive t = true) (he : next s t b (s.pc t) = some s') :
    Inv s' := by
  have hown := h.owns t hl
  have hsame : update s.alive t true = s.alive := by rw [← hl, update_eq_self]
  cases hp : s.pc t with
  | user | parked => simp [hp, Pi.next] at he
  | release =>
    simp only [hp] at he
    cases he
    exact h.handOver hl hp
  | load | gone | mark | done | unlock | unlocked =>
    simp only [hp] at he hown
    cases he
    exact h.goto hl (by grind) (by grind)
  | awake =>
    simp only [hp] at he hown
    cases he
    refine ⟨h.holds, ?_, h.nodup.erase _, ?_, h.pos⟩ <;> simp only [State.goto] <;>
      grind [Nodup.mem_erase_iff]
  | swap | setMark | enqueue =>
    simp only [hp, Pi.next, hsame] at he hown
    split_ifs at he <;> cases he <;> first
      | exact h.goto hl (by grind) (by grind)
      | refine ⟨?_, ?_, ?_, ?_, h.pos⟩ <;> simp only [State.goto, State.take] <;> grind

/-- A thread in user space changes the word from free to its own, or back. -/
theorem Inv.user (h : Inv s) (hp : s.pc t = .user) {w : Word} {v : Bool}
    (hw : ∀ u, s.alive u = true → u ≠ t → (s.word.owner = u ↔ w.owner = u))
    (hv : v = true ↔ w.owner = t) :
    Inv { s with word := w, holds := update s.holds t v } := by
  refine ⟨fun u hl => ?_, fun u hl => ?_, h.nodup, h.queued, h.pos⟩ <;>
    by_cases hut : u = t <;> dsimp only
  · rw [hut, update_self, hv]
  · rw [update_of_ne hut, h.holds u hl, hw u hl hut]
  · rw [hut, hp]
    trivial
  · rw [← propext (hw u hl hut)]
    exact h.owns u hl

theorem Inv.step (h : Inv s) (hc : Stops s e) (he : step s e = some s') : Inv s' := by
  obtain ⟨t, a⟩ := e
  cases a with
  | go b => exact h.next hc he
  | callLock trylock timed err =>
    simp only [step] at he
    cases err <;> dsimp only at he <;> split_ifs at he with hu <;> cases he <;>
      exact h.goto hc (by grind) (by grind)
  | wake =>
    simp only [step] at he
    split at he
    · split_ifs at he with hl
      cases he
      exact h.goto hl (fun _ => trivial) (by grind)
    · cases he
  | callUnlock =>
    simp only [step] at he
    split_ifs at he with hu
    cases he
    exact h.goto hc (by grind) trivial
  | exit =>
    cases he
    have hlive u (hl : update s.alive t false u = true) : s.alive u = true := by
      grind
    exact ⟨fun u hl => h.holds u (hlive u hl), fun u hl => (h.owns u (hlive u hl)).exit, h.nodup,
      fun u hu hl => h.queued u hu (hlive u hl), fun u hl => h.pos u (hlive u hl)⟩
  | reap =>
    simp only [step] at he
    split_ifs at he
    cases he
    exact ⟨h.holds, h.owns, h.nodup.filter _, fun u hu => h.queued u (mem_filter.mp hu).1, h.pos⟩
  | userLock | userUnlock =>
    have hl : s.alive t = true := hc
    simp only [step] at he
    split_ifs at he with hu hw
    · cases he
      exact h.user hu (by grind) (by grind)
    · cases he
      exact h

/-- **Mutual exclusion.**  If threads stop when they are marked, at most one live thread holds the
word, and a call of `futex_pi_lock` returns `0` exactly when its thread owns the word then and did
not when it called. -/
theorem holder_unique (h : Initial s) (hc : Along step Stops s es) (hr : run step s es = some s') :
    (∀ t u, s'.alive t = true → s'.alive u = true → s'.holds t = true → s'.holds u = true → t = u) ∧
    ∀ t c r, s'.alive t = true → s'.pc t = .done c r →
      (r = 0 ↔ s'.word.owner = t ∧ c.owned = false) := by
  have h0 : Inv s := by
    obtain ⟨h1, h2, h3, h4, h5⟩ := h
    refine ⟨?_, ?_, ?_, ?_, ?_⟩ <;> grind
  have hinv : Inv s' := run_invariant Inv (fun s e s' h hc he => h.step hc he) h0 hc hr
  refine ⟨fun t u hlt hlu h1 h2 => ?_, fun t c r hl hp => ?_⟩
  · rw [hinv.holds t hlt] at h1
    rw [hinv.holds u hlu] at h2
    exact h1.symm.trans h2
  · have := hinv.owns t hl
    rw [hp] at this
    exact this.1

/-- The word is handed to the second thread. -/
def handedOver : List (ℕ × Act) :=
  contended ++ [(1, .callUnlock), (1, .go false), (1, .go false), (2, .wake), (2, .go false)]

theorem holder_unique_handedOver : ∃ s', run step free handedOver = some s' ∧
    s'.pc 2 = .done ⟨false, false, false⟩ 0 ∧ s'.word.owner = 2 ∧
    ∀ t, s'.alive t = true → s'.holds t = true → t = 2 := by
  have hsome : (run step free handedOver).isSome := by decide
  have hpc : (get _ hsome).pc 2 = .done ⟨false, false, false⟩ 0 := by decide +revert
  have h := holder_unique initial_free (by decide) (some_get hsome).symm
  refine ⟨_, (some_get hsome).symm, hpc, ?_, fun t hl hh => ?_⟩
  · exact ((h.2 2 _ 0 rfl hpc).mp rfl).1
  · exact h.1 t 2 hl rfl hh rfl

/-- The first thread is marked in its `futex_pi_unlock`, and the second takes over as for a dead
owner. -/
def killed : List (ℕ × Act) :=
  [(1, .userLock), (1, .callUnlock), (1, .go false), (1, .exit), (2, .callLock false false none)] ++
    replicate 3 (2, .go false) ++ [(1, .go false), (3, .userLock)]

/-- **Two live threads hold the word**, when a thread that was marked goes on to its release.  And
the owner itself gets an error, with its thread id in the word. -/
theorem two_holders :
    (∃ s', run step free killed = some s' ∧ s'.alive 2 = true ∧ s'.alive 3 = true ∧
      s'.holds 2 = true ∧ s'.holds 3 = true ∧ s'.pc 2 = .done ⟨false, false, false⟩ 0 ∧
      s'.word.owner = 3) ∧
    ∃ s' c, run step free
      [(1, .userLock), (1, .callLock false false none), (1, .go false)] = some s' ∧
        s'.pc 1 = .done c (-35) ∧ s'.word.owner = 1 := by
  have hsome : (run step free killed).isSome := by decide
  refine ⟨⟨_, (some_get hsome).symm, ?_⟩,
    _, ⟨false, false, true⟩, (some_get (by decide)).symm, by decide, by decide⟩
  decide +revert

end AvoryOS.Futex.Pi
