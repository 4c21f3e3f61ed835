import AvoryOS.Eevfd.Invariant

/-!
# The run queues over whole runs

The scheduler puts an entity into a queue only while it does not run, and changes the weight, the
slice and the times of an entity only while it is in no queue.  There are fewer than `2 ^ 32`
threads.  If moreover entities are taken out of the queues they are in, all queues stay in order,
and the entity that is picked is the one a scan of the queue picks.
-/

namespace AvoryOS.Eevfd

open LinkedTree RedBlack Rb Function Option Sched

variable {s s' : Sched} {r x n : ℕ} {F : ℕ → RedBlack.Tree} {E : Finset ℕ} {e : Entity}

/-! ## The calls -/

/-- The calls of the scheduler.  `adjust` stands for all it does with an entity besides: nice
values, slices, and where a thread that wakes up is placed. -/
inductive Op where
  | enqueue (r x : ℕ)
  | dequeue (r x : ℕ)
  | pick (r : ℕ)
  | setNext (r x : ℕ)
  | putPrev (r x : ℕ)
  | updateCurr (r now : ℕ)
  | migrate (src dst x : ℕ)
  | adjust (x : ℕ) (e : Entity) (d : ℕ)

/-- One call.  A thread that is put into a queue belongs to its processor from then on. -/
def step (n : ℕ) : Op → Sched → Option Sched
  | .enqueue r x, s =>
    enqueueEntity n r x (if (s.se x).onRq then s else { s with cpu := update s.cpu x r })
  | .dequeue r x, s => dequeueEntity n r x s
  | .pick r, s => (pickNextEntity n r s).map Prod.snd
  | .setNext r x, s => setNextEntity n r x s
  | .putPrev r x, s => some (putPrevEntity r x s)
  | .updateCurr r now, s => some (updateCurr r now s)
  | .migrate src dst x, s => some (migrateEntity src dst x s)
  | .adjust x e d, s =>
    some { s.setSe x e with minDeadline := update s.minDeadline x d }

/-- The scheduler makes this call.  It looks for the queue of an entity by `cpu_index`, which
`sched_add_thread` sets after `on_rq`. -/
def Admissible (E : Finset ℕ) (s : Sched) : Op → Prop
  | .enqueue _ x => x ∈ E ∧ ∀ r, (s.rq r).curr ≠ x
  | .setNext r x => (s.se x).onRq = true → s.cpu x = r
  | .migrate _ _ x => (s.se x).onRq = false
  | .adjust x e _ => (s.se x).onRq = false ∧ e.onRq = false ∧ e.weight < 2 ^ 32
  | .dequeue _ _ | .pick _ | .putPrev _ _ | .updateCurr _ _ => True

/-- An entity that is taken out is in this queue, or in none. -/
def InPlace (s : Sched) : Op → Prop
  | .dequeue r x => (s.se x).onRq = true → s.cpu x = r
  | _ => True

structure Initial (E : Finset ℕ) (s : Sched) : Prop where
  rq : ∀ r, s.rq r = Rq.init
  onRq : ∀ x, (s.se x).onRq = false
  node : ∀ x ∈ E, s.node x = unlinked
  weight : ∀ x, (s.se x).weight < 2 ^ 32

/-- The states after any calls that meet a condition. -/
inductive Run (ok : Sched → Op → Prop) (n : ℕ) (E : Finset ℕ) : Sched → Prop where
  | start {s : Sched} : Initial E s → Run ok n E s
  | step {s s' : Sched} {op : Op} : Run ok n E s → Admissible E s op → ok s op →
      step n op s = some s' → Run ok n E s'

/-! ## What they keep -/

/-- All queues are kept, and the entities that run are in none. -/
structure Inv (E : Finset ℕ) (s : Sched) (F : ℕ → RedBlack.Tree) : Prop extends Core E s F where
  curr : ∀ r, (s.se (s.rq r).curr).onRq = false

theorem Initial.inv (hi : Initial E s) : Inv E s fun _ => .nil := by
  refine ⟨⟨fun r => ?_, fun r x => ?_, fun x hx => ?_, fun x hx _ => hi.node x hx, hi.weight⟩,
    fun r => hi.onRq _⟩
  · have hq := hi.rq r
    refine ⟨⟨⟨fun e he => (by cases he), fun e he => (by cases he), ?_, .nil, List.not_mem_nil⟩,
      fun f _ => ⟨trivial, trivial⟩⟩, ⟨trivial, 0, rfl⟩, .nil, ?_, ?_, ?_⟩
    · exact congrArg Rq.root hq
    · rw [hq]
      rfl
    · rw [hq]
      rfl
    · rw [hq]
      rfl
  · simp [inorder, hi.onRq]
  · rw [hi.onRq] at hx
    cases hx

/-- The entity that runs gets its time, and the times of the queue go on. -/
theorem updateCurr_eq (r now : ℕ) (s : Sched) : ∃ e v m,
    e.onRq = (s.se (s.rq r).curr).onRq ∧ e.weight = (s.se (s.rq r).curr).weight ∧
      updateCurr r now s = (s.setSe (s.rq r).curr e).setRq r
        { s.rq r with vtime := v, minVruntime := m } := by
  have hself : ∀ e, s.setSe (s.rq r).curr e = (s.setSe (s.rq r).curr e).setRq r
      { s.rq r with vtime := (s.rq r).vtime, minVruntime := (s.rq r).minVruntime } := by
    simp [setRq, setSe]
  have hsame : s = s.setSe (s.rq r).curr (s.se (s.rq r).curr) := by
    simp [setSe]
  by_cases h₀ : r = 0 ∨ (s.rq r).curr = 0
  · exact ⟨_, _, _, rfl, rfl, (if_pos h₀).trans (hsame.trans (hself _))⟩
  by_cases h1 : (s.se (s.rq r).curr).execStart = 0
  · exact ⟨{ s.se (s.rq r).curr with execStart := now }, _, _, rfl, rfl,
      (if_neg h₀).trans ((if_pos h1).trans (hself _))⟩
  by_cases h2 : now ≤ (s.se (s.rq r).curr).execStart
  · exact ⟨_, _, _, rfl, rfl,
      (if_neg h₀).trans ((if_neg h1).trans ((if_pos h2).trans (hsame.trans (hself _))))⟩
  refine ⟨_, _, _, ?_, ?_, (if_neg h₀).trans ((if_neg h1).trans ((if_neg h2).trans rfl))⟩
  · dsimp only
    split_ifs <;> rfl
  · dsimp only
    split_ifs <;> rfl

/-- **One call of the scheduler.** -/
theorem Inv.step {op : Op} (hi : Inv E s F) (hE : 0 ∉ E) (hcard : E.card < 2 ^ 32)
    (hn : E.card + 1 < n) (hop : Admissible E s op) (hplace : InPlace s op) :
    ∃ s' F', step n op s = some s' ∧ Inv E s' F' := by
  have hc := hi.toCore
  cases op with
  | enqueue r x =>
    obtain ⟨hx, hcurr⟩ := hop
    have hkept : ∀ (s1 s' : Sched), (∀ r, (s1.rq r).curr = (s.rq r).curr) → s1.se = s.se →
        (∀ r', (s'.rq r').curr = (s1.rq r').curr) → (∀ y, y ≠ x → s'.se y = s1.se y) →
        ∀ r, (s'.se (s'.rq r).curr).onRq = false := by
      intro s1 s' hq1 hse1 hq hse r
      rw [hq, hq1, hse _ (hcurr r), hse1]
      exact hi.curr r
    show ∃ s' F', enqueueEntity n r x _ = some s' ∧ _
    cases hon : (s.se x).onRq with
    | true =>
      obtain ⟨s', F', hs', hc', hq, hse⟩ := hc.enqueue (r := r) hE hx
        (fun h => by rw [hon] at h; cases h) hn
      exact ⟨s', F', hs', hc', hkept s s' (fun _ => rfl) rfl hq hse⟩
    | false =>
      obtain ⟨s', F', hs', hc', hq, hse⟩ := (hc.setCpu hon r).enqueue hE hx
        (fun _ => update_self _ _ _) hn
      exact ⟨s', F', hs', hc', hkept _ s' (fun _ => rfl) rfl hq hse⟩
  | dequeue r x =>
    obtain ⟨s', F', hs', hc', hoff, hq, hse⟩ := hc.dequeue (n := n) hE hplace (by omega)
    refine ⟨s', F', hs', hc', fun r' => ?_⟩
    rw [hq]
    by_cases hx : (s.rq r').curr = x
    · rw [hx]
      exact hoff
    · rw [hse _ hx]
      exact hi.curr r'
  | pick r =>
    obtain ⟨v, hpick⟩ := hc.pick (n := n) hcard (by omega) r
    refine ⟨_, F, congrArg (Option.map Prod.snd) hpick, hc.setRq rfl rfl rfl rfl, fun r' => ?_⟩
    rw [field_setRq Rq.curr (by rfl)]
    exact hi.curr r'
  | setNext r x =>
    by_cases hrx : r = 0 ∨ x = 0
    · exact ⟨s, F, if_pos hrx, hi⟩
    have hc1 : Core E (s.setRq r { s.rq r with curr := x }) F := hc.setRq rfl rfl rfl rfl
    obtain ⟨s1, F1, hs1, hc', hoff, hq, hse⟩ := hc1.dequeue (n := n) hE hop (by omega)
    have hc2 := (hc'.setRq (q := { s1.rq r with
      currStartExec := (s1.se x).prevSumExec }) rfl rfl rfl rfl).setSe
        (e := { s1.se x with execStart := 0 }) hoff hoff (hc'.weights x)
    refine ⟨_, F1, ?_, hc2, fun r' => ?_⟩
    · refine (if_neg hrx).trans ?_
      simp only [hs1]
      rfl
    refine (onRq_setSe (by rfl) _).trans ?_
    show (s1.se ((s1.setRq r _).rq r').curr).onRq = false
    rw [field_setRq Rq.curr (by rfl), hq]
    by_cases hr : r' = r
    · subst hr
      simpa [setRq] using hoff
    simp only [setRq, update_of_ne hr]
    by_cases hx : (s.rq r').curr = x
    · rw [hx]
      exact hoff
    · rw [hse _ hx]
      exact hi.curr r'
  | putPrev r x =>
    refine ⟨_, F, rfl, ?_⟩
    rw [putPrevEntity]
    by_cases hrx : r = 0 ∨ x = 0
    · rw [if_pos hrx]
      exact hi
    have hsame : ∀ y, Same (s.se y) ((s.setSe x { s.se x with execStart := 0 }).se y) :=
      same_update (by exact ⟨rfl, rfl, rfl⟩)
    have hi1 : Inv E (s.setSe x { s.se x with execStart := 0 }) F := by
      refine ⟨hc.congr rfl rfl (fun _ => rfl) (fun _ => rfl) (fun _ => rfl) (fun _ => rfl)
        (onRq_setSe (by rfl)) (fun y _ => ⟨hsame y, rfl⟩) fun y => ?_, fun r' => ?_⟩
      · rw [(hsame y).2.2]
        exact hc.weights y
      · exact (onRq_setSe (by rfl) _).trans (hi.curr r')
    have h0 : ((s.setSe x { s.se x with execStart := 0 }).se 0).onRq = false :=
      Bool.eq_false_iff.mpr fun h => hE (hi1.entity 0 h).1
    dsimp only
    split_ifs with hx
    · refine ⟨hi1.toCore.setRq rfl rfl rfl rfl, fun r' => ?_⟩
      by_cases hr : r' = r
      · subst hr
        simpa [setRq] using h0
      · simpa [setRq, hr] using hi1.curr r'
    · exact hi1
  | updateCurr r now =>
    obtain ⟨e, v, m, hon, hw, he⟩ := updateCurr_eq r now s
    have hc1 : Core E (s.setSe (s.rq r).curr e) F :=
      hc.setSe (hi.curr r) (hon.trans (hi.curr r)) (by rw [hw]; exact hc.weights _)
    refine ⟨_, F, rfl, ?_⟩
    rw [he]
    refine ⟨hc1.setRq rfl rfl rfl rfl, fun r' => ?_⟩
    rw [field_setRq Rq.curr (by rfl)]
    exact (onRq_setSe hon _).trans (hi.curr r')
  | migrate src dst x =>
    refine ⟨_, F, rfl, ?_⟩
    rw [migrateEntity]
    by_cases hx : x = 0 ∨ dst = 0
    · rw [if_pos hx]
      exact hi
    rw [if_neg hx]
    refine ⟨(hc.setSe hop ?_ ?_).setMinDeadline ?_ _, fun r' => ?_⟩
    · exact hop
    · exact hc.weights x
    · exact (onRq_setSe (by rfl) x).trans hop
    · exact (onRq_setSe (by rfl) _).trans (hi.curr r')
  | adjust x e d =>
    obtain ⟨hx, he, hw⟩ := hop
    have hon : e.onRq = (s.se x).onRq := he.trans hx.symm
    exact ⟨_, F, rfl, (hc.setSe hx he hw).setMinDeadline ((onRq_setSe hon x).trans hx) d,
      fun r' => (onRq_setSe hon _).trans (hi.curr r')⟩

theorem Run.inv (hE : 0 ∉ E) (hcard : E.card < 2 ^ 32) (hn : E.card + 1 < n)
    (hr : Run InPlace n E s) : ∃ F, Inv E s F := by
  induction hr with
  | start hi => exact ⟨_, hi.inv⟩
  | step _ hop hplace hs ih =>
    obtain ⟨F, hi⟩ := ih
    obtain ⟨s', F', hs', hi'⟩ := hi.step hE hcard hn hop hplace
    obtain rfl := some.inj (hs.symm.trans hs')
    exact ⟨F', hi'⟩

/-! ## What this says about a queue -/

theorem value_attained {se : ℕ → Entity} {f : ℕ → Option ℕ → Option ℕ → ℕ}
    (hf : updateMinDeadline se = some f) {t : RedBlack.Tree} {m : ℕ} (hm : value f t = some m) :
    ∃ x ∈ inorder t, (se x).deadline = m := by
  have hfun : ∀ x l r, f x l r = lower (lower (se x).deadline l) r := by
    cases hf
    exact fun _ _ _ => rfl
  induction t generalizing m with
  | nil => cases hm
  | node a l b ihl ihr =>
    rw [value, hfun] at hm
    cases hm
    have hlower : ∀ (d : ℕ) (o : Option ℕ), lower d o = d ∨ o = some (lower d o) := by
      intro d o
      cases o with
      | none => exact .inl rfl
      | some c =>
        rw [lower]
        split_ifs
        · exact .inr rfl
        · exact .inl rfl
    rcases hlower (lower (se a.1).deadline (value f l)) (value f b) with hb | hb
    · rw [hb]
      rcases hlower (se a.1).deadline (value f l) with hl | hl
      · exact ⟨a.1, by simp [inorder], hl.symm⟩
      · obtain ⟨x, hx, hd⟩ := ihl hl
        exact ⟨x, by simp [inorder, hx], hd⟩
    · obtain ⟨x, hx, hd⟩ := ihr hb
      exact ⟨x, by simp [inorder, hx], hd⟩

/-- The queue `r` holds its entities in a red-black tree, in the order of the virtual runtime: every
node has the least deadline of the entities below it, and the first entity, the number of the
entities and their weight are what they are. -/
structure Ordered (s : Sched) (r : ℕ) (T : RedBlack.Tree) : Prop where
  links : At s.node (s.rq r).root [] T
  valid : Valid T
  mem : ∀ x, x ∈ inorder T ↔ (s.se x).onRq = true ∧ s.cpu x = r
  order : (inorder T).Pairwise fun x y => (s.se x).vruntime ≤ (s.se y).vruntime
  least : ∀ k t, T = plug k t → t ≠ .nil →
    (∃ y ∈ inorder t, (s.se y).deadline = s.minDeadline (top t)) ∧
      ∀ y ∈ inorder t, s.minDeadline (top t) ≤ (s.se y).deadline
  leftmost : (s.rq r).leftmost = (inorder T).headD 0
  running : (s.rq r).nrRunning = (inorder T).length
  weight : (s.rq r).totalWeight = ((inorder T).map fun x => (s.se x).weight).sum

theorem sum_weight_le {Q : List ℕ} {se : ℕ → Entity} (hw : ∀ x, (se x).weight < 2 ^ 32) :
    (Q.map fun x => (se x).weight).sum ≤ Q.length * (2 ^ 32 - 1) := by
  induction Q with
  | nil => simp
  | cons x Q ih =>
    have hx := hw x
    simp only [List.map_cons, List.sum_cons, List.length_cons]
    omega

theorem Core.ordered (hc : Core E s F) (hcard : E.card < 2 ^ 32) (r : ℕ) : Ordered s r (F r) := by
  have hk := hc.queue r
  have hlen := hc.length_le r
  obtain ⟨f, hf⟩ : ∃ f, updateMinDeadline s.se = some f := ⟨_, rfl⟩
  refine ⟨hk.good.links, hk.valid, hc.mem r, ?_, ?_, hk.leftmost, ?_, ?_⟩
  · exact List.Pairwise.imp vruntime_le_of_goesLeft hk.sorted
  · intro k t hT ht
    have hex := (hk.good.exact f hf).1
    rw [hT, exact_plug] at hex
    have hval : value f t = some (s.minDeadline (top t)) := by
      cases t with
      | nil => exact absurd rfl ht
      | node a l b =>
        rw [value, ← hex.1.1]
        rfl
    exact ⟨value_attained hf hval, fun y hy => value_le_deadline hf hval hy⟩
  · rw [hk.running, Nat.mod_eq_of_lt (by omega)]
  have hsum := sum_weight_le (Q := inorder (F r)) hc.weights
  rw [hk.weight]
  omega

/-- **The run queues and the entity that is picked.**  After any calls of the scheduler that take
entities out of the queues they are in:

* every queue is ordered;
* the entity that is picked from it is the one a scan of the queue picks, which is one of the
  smallest deadline among those whose virtual runtime is at most the virtual time of the queue, or
  the first of the queue if there are none;
* every such call of the scheduler is carried out. -/
theorem eevfd_promise (n : ℕ) (E : Finset ℕ) (s : Sched) (hE : 0 ∉ E) (hcard : E.card < 2 ^ 32)
    (hn : E.card + 1 < n) (hr : Run InPlace n E s) : (∀ r, ∃ T, Ordered s r T ∧
      (∃ p s', pickNextEntity n r s = some (p, s') ∧
        p = linearScan s.se (s.rq r).vtime (inorder T) ∧
        ((∃ x ∈ inorder T, (s.se x).vruntime ≤ (s.rq r).vtime) →
          p ∈ inorder T ∧ (s.se p).vruntime ≤ (s.rq r).vtime ∧
            ∀ x ∈ inorder T, (s.se x).vruntime ≤ (s.rq r).vtime →
              (s.se p).deadline ≤ (s.se x).deadline) ∧
        ((∀ x ∈ inorder T, (s.rq r).vtime < (s.se x).vruntime) → p = (s.rq r).leftmost))) ∧
    ∀ op, Admissible E s op → InPlace s op → ∃ s', step n op s = some s' := by
  obtain ⟨F, hi⟩ := hr.inv hE hcard hn
  refine ⟨fun r => ?_, fun op hop hplace => ?_⟩
  swap
  · obtain ⟨s', -, hs', -⟩ := hi.step hE hcard hn hop hplace
    exact ⟨s', hs'⟩
  have ho := hi.toCore.ordered hcard r
  obtain ⟨v, hpick⟩ := hi.toCore.pick (n := n) hcard (by omega) r
  have h0 : 0 ∉ inorder (F r) := fun h => ho.links.nonzero (List.mem_append_left _ h)
  obtain ⟨hsome, hnone⟩ := linearScan_spec s.se (s.rq r).vtime h0
  refine ⟨F r, ho, _, _, hpick, rfl, fun hx => ?_, fun hx => ?_⟩
  · obtain ⟨L, R, hQ, hle, hL, hR⟩ := hsome hx
    generalize linearScan s.se (s.rq r).vtime (inorder (F r)) = p at hQ hle hL hR ⊢
    refine ⟨by rw [hQ]; simp, hle, fun x hx hxe => ?_⟩
    rw [hQ, List.mem_append, List.mem_cons] at hx
    rcases hx with hx | rfl | hx
    · exact Nat.le_of_lt (hL x hx hxe)
    · exact le_rfl
    · exact hR x hx hxe
  · rw [hnone hx, ho.leftmost]

namespace Two

/-- The queues of two processors, and two threads. -/
def queue : ℕ := 0xFFFF800000000000

def other : ℕ := 0xFFFF800000000100

def early : ℕ := 0xFFFF800000001000

def late : ℕ := 0xFFFF800000002000

def entity (x : ℕ) : Entity :=
  ⟨0, if x = late then 6000000 else 3000000, 3000000, 1024, 4194304, 0, 0, 0, 0, false, false, 0, 0⟩

def idle : Sched := ⟨fun _ => unlinked, fun _ => 0, entity, fun _ => Rq.init, fun _ => 0⟩

theorem idle_initial : Initial {early, late} idle :=
  ⟨fun _ => rfl, fun _ => rfl, fun _ _ => rfl, fun x => (by decide : (1024 : ℕ) < 2 ^ 32)⟩

theorem late_isSome : (step 4 (.enqueue queue late) idle).isSome = true := by decide +kernel

/-- The second thread waits, and then the first, too. -/
def waiting : Sched := (step 4 (.enqueue queue late) idle).get late_isSome

theorem early_isSome : (step 4 (.enqueue queue early) waiting).isSome = true := by decide +kernel

def bothWaiting : Sched := (step 4 (.enqueue queue early) waiting).get early_isSome

theorem waiting_run {ok : Sched → Op → Prop} (hok : ok idle (.enqueue queue late)) :
    Run ok 4 {early, late} waiting := by
  have hop : Admissible {early, late} idle (.enqueue queue late) :=
    ⟨by decide, fun _ => (by decide : (0 : ℕ) ≠ late)⟩
  exact .step (.start idle_initial) hop hok (some_get late_isSome).symm

theorem waiting_curr (r : ℕ) : (waiting.rq r).curr = 0 := by
  obtain ⟨s', F', hs', -, hq, -⟩ := (idle_initial.inv.toCore.setCpu rfl queue).enqueue (r := queue)
    (x := late) (n := 4) (by decide) (by decide) (fun _ => update_self _ _ _) (by decide)
  obtain rfl : s' = waiting := some.inj (hs'.symm.trans (some_get late_isSome).symm)
  exact hq r

theorem bothWaiting_run : Run InPlace 4 {early, late} bothWaiting := by
  have hop : Admissible {early, late} waiting (.enqueue queue early) := by
    refine ⟨by decide, fun r => ?_⟩
    rw [waiting_curr]
    decide
  exact .step (waiting_run trivial) hop trivial (some_get early_isSome).symm

theorem misplaced_isSome : (step 4 (.dequeue other late) waiting).isSome = true := by
  decide +kernel

/-- The second thread is taken out of the other queue. -/
def misplaced : Sched := (step 4 (.dequeue other late) waiting).get misplaced_isSome

end Two

open Two

theorem eevfd_promise_waiting : (bothWaiting.rq queue).nrRunning = 2 ∧
    (pickNextEntity 4 queue bothWaiting).map Prod.fst = some early ∧
      ∀ r, ∃ T, Ordered bothWaiting r T :=
  ⟨by decide +kernel, by decide +kernel, fun r =>
    ((eevfd_promise 4 _ _ (by decide) (by decide) (by decide) bothWaiting_run).1 r).imp
      fun _ h => h.1⟩

/-- **A thread is taken out of the queue of another processor.**  The priority of a new thread is
set while the thread is put into a queue, before its processor is set: it stays in the queue, and
is marked as in none. -/
theorem misplaced_entity : Run (fun _ _ => True) 4 {early, late} misplaced ∧
    (misplaced.rq queue).root = late ∧ (misplaced.se late).onRq = false ∧
      ∀ T, ¬Ordered misplaced queue T := by
  have hroot : (misplaced.rq queue).root = late := by decide +kernel
  have hon : (misplaced.se late).onRq = false := by decide +kernel
  have hop : Admissible {early, late} waiting (.dequeue other late) := trivial
  refine ⟨.step (waiting_run trivial) hop trivial (some_get misplaced_isSome).symm, hroot, hon,
    fun T h => ?_⟩
  have hmem : late ∈ inorder T := by
    have htop : late = top T := hroot.symm.trans h.links.root_eq
    cases T with
    | nil => exact absurd htop (by decide)
    | node a l b => simp [inorder, show late = a.1 from htop]
  rw [h.mem, hon] at hmem
  cases hmem.1

end AvoryOS.Eevfd
