import Mathlib.Algebra.Order.Ring.Int
import Mathlib.Logic.Function.Basic
import Mathlib.Tactic.Common

/-!
# Semaphore operations

`sys_semtimedop` checks each operation of a call against the values as they are and then applies
all of them.  The check knows no upper bound and does not see what the earlier operations of the
call do to a semaphore; `semop_atomic_iff` says for which calls this is `semop`.

A call that cannot go on drops the lock and makes the same round again later.  It keeps nothing
between the rounds, so the calls on a set are a sequence of rounds in any order.
-/

namespace AvoryOS.Ipc

open Function

/-- `struct sembuf`; the only flag that is read is `IPC_NOWAIT`. -/
structure Sembuf where
  num : ℕ
  op : ℤ
  nowait : Bool
  range : -2 ^ 15 ≤ op ∧ op < 2 ^ 15

/-- The test of the first loop. -/
def passes (val : ℕ → ℕ) (o : Sembuf) : Bool :=
  if o.op < 0 then (-o.op).toNat ≤ val o.num else if o.op = 0 then val o.num = 0 else true

/-- The body of the second loop, in 16 bits. -/
def apply (val : ℕ → ℕ) (o : Sembuf) : ℕ → ℕ :=
  if o.op < 0 then update val o.num ((val o.num + 2 ^ 16 - (-o.op).toNat) % 2 ^ 16)
  else if 0 < o.op then update val o.num ((val o.num + o.op.toNat) % 2 ^ 16)
  else val

/-- One round of `sys_semtimedop` on a set of `n` semaphores: the result, `none` when the call
waits, and the values. -/
def semtimedop (n : ℕ) (val : ℕ → ℕ) (ops : List Sembuf) (timeout : Bool) : Option ℤ × (ℕ → ℕ) :=
  if ops.length = 0 ∨ 256 < ops.length then (some (-22), val)
  else if ops.any fun o => n ≤ o.num then (some (-33), val)
  else if ops.all (passes val) then (some 0, ops.foldl apply val)
  else if ops.any Sembuf.nowait || timeout then (some (-11), val)
  else (none, val)

/-- `SETVAL`. -/
def setVal (n : ℕ) (val : ℕ → ℕ) (num arg : ℕ) : ℕ → ℕ :=
  if n ≤ num then val else update val num (arg % 2 ^ 16)

/-- `SETALL`. -/
def setAll (n : ℕ) (val array : ℕ → ℕ) (i : ℕ) : ℕ := if i < n then array i else val i

/-- `semop` as it is specified: each operation in its turn, on a semaphore of the set, leaves a
value from 0 to 32767, and a zero test finds 0. -/
def inOrder (n : ℕ) : (ℕ → ℕ) → List Sembuf → Option (ℕ → ℕ)
  | val, [] => some val
  | val, o :: ops =>
    if o.num < n ∧ 0 ≤ val o.num + o.op ∧ val o.num + o.op ≤ 32767 ∧ (o.op = 0 → val o.num = 0) then
      inOrder n (update val o.num (val o.num + o.op).toNat) ops
    else none

/-- A round returns 0 with the values of the operations in order, or the operations are not
possible and no value changes. -/
def Atomic (n : ℕ) (val : ℕ → ℕ) (ops : List Sembuf) (timeout : Bool) : Prop :=
  let r := semtimedop n val ops timeout
  if r.1 = some 0 then inOrder n val ops = some r.2 else inOrder n val ops = none ∧ r.2 = val

def added (ops : List Sembuf) (num : ℕ) : ℤ := ((ops.filter (·.num = num)).map Sembuf.op).sum

/-- The operation is on one of the `n` semaphores, of value `v`: it takes no more than there is,
and a zero test finds 0. -/
def Possible (n : ℕ) (v : ℤ) (o : Sembuf) : Prop := o.num < n ∧ 0 ≤ v + o.op ∧ (o.op = 0 → v = 0)

/-- Every operation is possible on the value before the call. -/
def AtOnce (n : ℕ) (val : ℕ → ℕ) (ops : List Sembuf) : Prop := ∀ o ∈ ops, Possible n (val o.num) o

/-- Every operation is possible after those before it, and takes no value above 32767. -/
def InTurn (n : ℕ) (val : ℕ → ℕ) (ops : List Sembuf) : Prop :=
  ∀ pre o post, ops = pre ++ o :: post →
    Possible n (val o.num + added pre o.num) o ∧ val o.num + added pre o.num + o.op ≤ 32767

/-- All operations are possible in both ways, or some operation in neither. -/
def Agrees (n : ℕ) (val : ℕ → ℕ) (ops : List Sembuf) : Prop :=
  AtOnce n val ops ∧ InTurn n val ops ∨ ¬ AtOnce n val ops ∧ ¬ InTurn n val ops

def Accepted (ops : List Sembuf) : Prop := 1 ≤ ops.length ∧ ops.length ≤ 256

/-- The values of a set after rounds of calls that agree and changes to values in range. -/
inductive Reach (n : ℕ) : (ℕ → ℕ) → Prop
  | init {val : ℕ → ℕ} (range : ∀ i, val i ≤ 32767) : Reach n val
  | call {val : ℕ → ℕ} {ops : List Sembuf} (timeout : Bool) (h : Reach n val)
      (accepted : Accepted ops) (agrees : Agrees n val ops) :
      Reach n (semtimedop n val ops timeout).2
  | setVal {val : ℕ → ℕ} {num arg : ℕ} (h : Reach n val) (range : arg ≤ 32767) :
      Reach n (setVal n val num arg)
  | setAll {val array : ℕ → ℕ} (h : Reach n val) (range : ∀ i, array i ≤ 32767) :
      Reach n (setAll n val array)

variable {n : ℕ} {val val' : ℕ → ℕ} {ops : List Sembuf}

theorem inOrder_spec (hrange : ∀ i, val i ≤ 32767) (h : inOrder n val ops = some val') :
    ops.foldl apply val = val' ∧ ∀ i, val' i ≤ 32767 := by
  induction ops generalizing val with
  | nil =>
    cases h
    exact ⟨rfl, hrange⟩
  | cons o ops ih =>
    obtain ⟨⟨-, hlo, hhi, -⟩, h⟩ := Option.ite_none_right_eq_some.mp h
    have happly : apply val o = update val o.num (val o.num + o.op).toNat := by
      have := hrange o.num
      rw [apply]
      split_ifs
      · congr 1
        omega
      · congr 1
        omega
      · rw [show (val o.num + o.op).toNat = val o.num by omega, update_eq_self]
    rw [List.foldl_cons, happly]
    refine ih (fun i => ?_) h
    rw [update_apply]
    split
    · omega
    · exact hrange i

theorem inTurn_cons {o : Sembuf} :
    InTurn n val (o :: ops) ↔ (Possible n (val o.num) o ∧ val o.num + o.op ≤ 32767) ∧
      InTurn n (update val o.num (val o.num + o.op).toNat) ops := by
  -- the operations that follow find what the first one has added
  have hval (h : Possible n (val o.num) o) (pre : List Sembuf) (num : ℕ) :
      (update val o.num (val o.num + o.op).toNat num : ℤ) + added pre num =
        val num + added (o :: pre) num := by
    have := h.2.1
    by_cases hnum : o.num = num
    · subst hnum
      simp [added]
      omega
    · simp [added, hnum, Ne.symm hnum]
  constructor
  · intro h
    have ho := h [] o ops rfl
    simp only [added, List.filter_nil, List.map_nil, List.sum_nil, add_zero] at ho
    refine ⟨ho, fun pre o' post heq => ?_⟩
    rw [hval ho.1]
    exact h (o :: pre) o' post (by rw [heq, List.cons_append])
  · rintro ⟨ho, h⟩ (_ | ⟨o', pre⟩) o'' post heq
    · cases heq
      simpa [added] using ho
    · cases heq
      rw [← hval ho.1]
      exact h pre o'' post rfl

/-- The operations are possible in order exactly when each is in its turn. -/
theorem inOrder_isSome_iff : (inOrder n val ops).isSome ↔ InTurn n val ops := by
  induction ops generalizing val with
  | nil => simp [inOrder, InTurn]
  | cons o ops ih =>
    rw [inTurn_cons, ← ih, inOrder]
    split
    · grind [Possible]
    · grind [Possible]

theorem passes_iff {o : Sembuf} :
    passes val o = true ↔ 0 ≤ val o.num + o.op ∧ (o.op = 0 → (val o.num : ℤ) = 0) := by
  rw [passes]
  split_ifs <;> simp <;> omega

theorem semtimedop_cases (n : ℕ) (val : ℕ → ℕ) (timeout : Bool) (haccepted : Accepted ops) :
    AtOnce n val ops ∧ semtimedop n val ops timeout = (some 0, ops.foldl apply val) ∨
      ¬ AtOnce n val ops ∧ ∃ r ≠ some 0, semtimedop n val ops timeout = (r, val) := by
  obtain ⟨hpos, hle⟩ := haccepted
  have hchecked : AtOnce n val ops ↔
      (ops.any fun o => n ≤ o.num) = false ∧ ops.all (passes val) = true := by
    simp [AtOnce, Possible, passes_iff, forall_and]
  rw [hchecked, semtimedop, if_neg (by omega)]
  split_ifs <;> simp [*]

theorem atomic_iff (hrange : ∀ i, val i ≤ 32767) (haccepted : Accepted ops) (timeout : Bool) :
    Atomic n val ops timeout ↔ Agrees n val ops := by
  rw [Atomic, Agrees, ← inOrder_isSome_iff]
  obtain ⟨hc, heq⟩ | ⟨hc, r, hr, heq⟩ := semtimedop_cases n val timeout haccepted
  · simp only [heq, if_true, hc, true_and, not_true_eq_false, false_and, or_false,
      Option.isSome_iff_exists]
    refine ⟨fun hw => ⟨_, hw⟩, fun ⟨w, hw⟩ => ?_⟩
    exact hw.trans (congrArg some (inOrder_spec hrange hw).1.symm)
  · simp [heq, hr, hc]

theorem Reach.range (h : Reach n val) : ∀ i, val i ≤ 32767 := by
  induction h with
  | init range => exact range
  | call timeout _ accepted agrees ih =>
    obtain ⟨hc, heq⟩ | ⟨-, r, -, heq⟩ := semtimedop_cases _ _ timeout accepted <;> rw [heq]
    · have hturn := agrees.resolve_right fun hno => hno.1 hc
      obtain ⟨w, hw⟩ := Option.isSome_iff_exists.mp (inOrder_isSome_iff.mpr hturn.2)
      obtain ⟨rfl, hw⟩ := inOrder_spec ih hw
      exact hw
    · exact ih
  | setVal _ range ih =>
    rw [Ipc.setVal]
    split
    · exact ih
    intro i
    rw [update_apply]
    split
    · omega
    · exact ih i
  | setAll _ range ih =>
    intro i
    rw [Ipc.setAll]
    split
    · exact range i
    · exact ih i

/-- **When `semop` is atomic.**  After calls whose operations were possible at once and in turn, or
in neither way, the next round is atomic if and only if it is such a call. -/
theorem semop_atomic_iff {n : ℕ} {val : ℕ → ℕ} {ops : List Sembuf} (h : Reach n val)
    (haccepted : Accepted ops) (timeout : Bool) :
    Atomic n val ops timeout ↔ Agrees n val ops :=
  atomic_iff h.range haccepted timeout

def up : Sembuf := ⟨0, 1, false, by decide⟩

def down : Sembuf := ⟨0, -1, false, by decide⟩

theorem semop_atomic_down : Atomic 1 (fun _ => 1) [down, up] false :=
  (semop_atomic_iff (.init fun _ => by decide) ⟨by decide, by decide⟩ false).mpr <| .inl
    ⟨by simp [AtOnce, Possible, down, up],
      inOrder_isSome_iff.mp (by simp [inOrder, down, up])⟩

/-- Two decrements both pass on the value 1 and wrap it, an increment passes 32767, and a
decrement waits for the increment before it in the same call. -/
theorem semop_not_atomic :
    ((semtimedop 1 (fun _ => 1) [down, down] false).1 = some 0 ∧
      (semtimedop 1 (fun _ => 1) [down, down] false).2 0 = 65535) ∧
    ((semtimedop 1 (fun _ => 32767) [up] false).1 = some 0 ∧
      (semtimedop 1 (fun _ => 32767) [up] false).2 0 = 32768) ∧
    (semtimedop 1 (fun _ => 0) [up, down] false).1 = none ∧
      inOrder 1 (fun _ => 0) [up, down] ≠ none :=
  ⟨⟨rfl, rfl⟩, ⟨rfl, rfl⟩, rfl, by simp [inOrder, up, down]⟩

end AvoryOS.Ipc
