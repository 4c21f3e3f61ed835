import AvoryOS.Lib.Forward
import Mathlib.Data.Fintype.Basic

/-!
# Seccomp filters

A filter is a classic BPF program that a system call is checked with.  `verify` is the check
it passes when it is installed: jumps go forward and stay inside, the last instruction
returns, loads stay inside the data and the scratch memory, and on every path a scratch word
is stored before it is loaded.  For the last point it keeps, for each instruction, the set of
words stored on all paths to it, or `none` if no path has reached it.

`step` is one instruction of `sc_run`.  Where the code would read outside an array, read a
scratch word before it was stored, meet an unknown code or run off the end, the model stops
with a fault.
-/

namespace AvoryOS.Sched.Seccomp

open Function Option List

inductive Alu
  | add | sub | mul | div | mod | or | and | xor | lsh | rsh
  deriving DecidableEq

inductive Cond
  | eq | gt | ge | set
  deriving DecidableEq

/-- An operation.  `reg` says that the operand is `x` and not `k`. -/
inductive Op
  | ldImm | ldxImm | ldLen | ldxLen | ldAbs | ldMem | ldxMem | st | stx | tax | txa
  | alu (op : Alu) (reg : Bool) | neg
  | ja | jump (c : Cond) (reg : Bool)
  | retK | retA
  deriving DecidableEq

/-- The codes of the two `switch` statements. -/
def decode : ℕ → Option Op
  | 0x00 => some .ldImm
  | 0x01 => some .ldxImm
  | 0x80 => some .ldLen
  | 0x81 => some .ldxLen
  | 0x07 => some .tax
  | 0x87 => some .txa
  | 0x20 => some .ldAbs
  | 0x60 => some .ldMem
  | 0x61 => some .ldxMem
  | 0x02 => some .st
  | 0x03 => some .stx
  | 0x06 => some .retK
  | 0x16 => some .retA
  | 0x05 => some .ja
  | 0x15 => some (.jump .eq false)
  | 0x1d => some (.jump .eq true)
  | 0x25 => some (.jump .gt false)
  | 0x2d => some (.jump .gt true)
  | 0x35 => some (.jump .ge false)
  | 0x3d => some (.jump .ge true)
  | 0x45 => some (.jump .set false)
  | 0x4d => some (.jump .set true)
  | 0x04 => some (.alu .add false)
  | 0x0c => some (.alu .add true)
  | 0x14 => some (.alu .sub false)
  | 0x1c => some (.alu .sub true)
  | 0x24 => some (.alu .mul false)
  | 0x2c => some (.alu .mul true)
  | 0x34 => some (.alu .div false)
  | 0x3c => some (.alu .div true)
  | 0x94 => some (.alu .mod false)
  | 0x9c => some (.alu .mod true)
  | 0x44 => some (.alu .or false)
  | 0x4c => some (.alu .or true)
  | 0x54 => some (.alu .and false)
  | 0x5c => some (.alu .and true)
  | 0xa4 => some (.alu .xor false)
  | 0xac => some (.alu .xor true)
  | 0x64 => some (.alu .lsh false)
  | 0x6c => some (.alu .lsh true)
  | 0x74 => some (.alu .rsh false)
  | 0x7c => some (.alu .rsh true)
  | 0x84 => some .neg
  | _ => none

structure Insn where
  code : UInt16
  jt : UInt8
  jf : UInt8
  k : UInt32
  deriving DecidableEq

def Insn.op (p : Insn) : Option Op := decode p.code.toNat

/-- A program as `seccomp_control` copies it in: `SC_MAX_INSNS` instructions at most. -/
structure Program where
  insns : List Insn
  pos : 0 < insns.length
  le : insns.length ≤ 4096

def Program.count (f : Program) : ℕ := f.insns.length

/-! ## The check -/

/-- The scratch words stored so far. -/
abbrev Mask := BitVec 16

/-- The checks of the `switch`. -/
def Op.check (f : Program) (i : ℕ) (p : Insn) (state : Option Mask) : Op → Bool
  | .ldAbs => p.k.toNat % 4 = 0 ∧ p.k.toNat ≤ 60
  | .ldMem | .ldxMem => p.k.toNat < 16 ∧ state.all (·.getLsbD p.k.toNat)
  | .st | .stx => p.k.toNat < 16
  | .ja => p.k.toNat < f.count - i - 1
  | .alu .div false | .alu .mod false => p.k ≠ 0
  | .alu .lsh false | .alu .rsh false => p.k.toNat < 32
  | _ => true

/-- The words that are stored after the instruction. -/
def Op.mask (p : Insn) (m : Mask) : Op → Mask
  | .st | .stx => m ||| (1#16 <<< p.k.toNat)
  | _ => m

def Op.next (i : ℕ) (p : Insn) : Op → List ℕ
  | .retK | .retA => []
  | .ja => [i + 1 + p.k.toNat]
  | .jump _ _ => [i + 1 + p.jt.toNat, i + 1 + p.jf.toNat]
  | _ => [i + 1]

/-- One instruction: it passes its checks, it goes to instructions of the program, and if a path
reaches it they receive the words stored so far. -/
def verifyInsn (f : Program) (i : ℕ) (state : Option Mask) : Option (List (ℕ × Mask)) := do
  let p ← f.insns[i]?
  let op ← p.op
  if op.check f i p state && (op.next i p).all (· < f.count) then
    some (state.toList.flatMap fun m => (op.next i p).map fun j => (j, op.mask p m))
  else none

/-- Only the first instruction is reached at first, with nothing stored. -/
def states₀ : ℕ → Option Mask := update (fun _ => none) 0 (some 0)

/-- `sc_verify`; `room` says whether the table of states could be allocated. -/
def verify (f : Program) (room : Bool) : ℤ :=
  if room then
    match Forward.pass (· &&& ·) (verifyInsn f) f.count states₀ with
    | none => -22
    | some _ => if (f.insns[f.count - 1]?).any fun p => p.code &&& 7 == 6 then 0 else -22
  else -12

/-! ## The run -/

/-- The bytes of `struct sc_data`. -/
structure Data where
  bytes : List UInt8
  size : bytes.length = 64

/-- The word at a byte offset, if it lies inside. -/
def Data.word (d : Data) (k : ℕ) : Option UInt32 :=
  if k + 4 ≤ d.bytes.length then
    let b (j : ℕ) : UInt32 := (d.bytes[k + j]?.getD 0).toUInt32
    some (b 0 ||| (b 1 <<< 8) ||| (b 2 <<< 16) ||| (b 3 <<< 24))
  else none

/-- `stored` is not part of the code: the scratch words this run has stored. -/
structure State where
  pc : ℕ
  a : UInt32
  x : UInt32
  mem : ℕ → UInt32
  stored : ℕ → Bool

inductive Fault
  | load | scratch | unset | unknown | end

inductive Step
  | next (s : State)
  | ret (v : UInt32)
  | kill
  | fault (f : Fault)

def Alu.eval : Alu → UInt32 → UInt32 → Option UInt32
  | .add, a, v => some (a + v)
  | .sub, a, v => some (a - v)
  | .mul, a, v => some (a * v)
  | .div, a, v => if v = 0 then none else some (a / v)
  | .mod, a, v => if v = 0 then none else some (a % v)
  | .or, a, v => some (a ||| v)
  | .and, a, v => some (a &&& v)
  | .xor, a, v => some (a ^^^ v)
  | .lsh, a, v => some (a <<< (v &&& 31))
  | .rsh, a, v => some (a >>> (v &&& 31))

def Cond.holds : Cond → UInt32 → UInt32 → Bool
  | .eq, a, v => a == v
  | .gt, a, v => decide (v < a)
  | .ge, a, v => decide (v ≤ a)
  | .set, a, v => a &&& v != 0

/-- The instruction after `off` others.  The counter is a 32-bit number. -/
def State.go (s : State) (off : ℕ) : Step := .next { s with pc := (s.pc + off + 1) % 2 ^ 32 }

def State.load (s : State) (k : ℕ) (g : UInt32 → Step) : Step :=
  if 16 ≤ k then .fault .scratch else if s.stored k then g (s.mem k) else .fault .unset

open State

def State.store (s : State) (k : ℕ) (w : UInt32) : Step :=
  if 16 ≤ k then .fault .scratch
  else go { s with
    mem := update s.mem k w
    stored := update s.stored k true } 0

def Op.run (d : Data) (p : Insn) (s : State) : Op → Step
  | .ldImm => go { s with a := p.k } 0
  | .ldxImm => go { s with x := p.k } 0
  | .ldLen => go { s with a := 64 } 0
  | .ldxLen => go { s with x := 64 } 0
  | .ldAbs => match d.word p.k.toNat with
      | none => .fault .load
      | some w => go { s with a := w } 0
  | .ldMem => s.load p.k.toNat fun w => go { s with a := w } 0
  | .ldxMem => s.load p.k.toNat fun w => go { s with x := w } 0
  | .st => s.store p.k.toNat s.a
  | .stx => s.store p.k.toNat s.x
  | .tax => go { s with x := s.a } 0
  | .txa => go { s with a := s.x } 0
  | .alu op _ => match op.eval s.a (if p.code &&& 8 ≠ 0 then s.x else p.k) with
      | none => .kill
      | some w => go { s with a := w } 0
  | .neg => go { s with a := 0 - s.a } 0
  | .ja => s.go p.k.toNat
  | .jump c _ =>
    s.go (if c.holds s.a (if p.code &&& 8 ≠ 0 then s.x else p.k) then p.jt else p.jf).toNat
  | .retK => .ret p.k
  | .retA => .ret s.a

def step (f : Program) (d : Data) (s : State) : Step :=
  match f.insns[s.pc]? with
  | none => .fault .end
  | some p => match p.op with
      | none => .fault .unknown
      | some op => op.run d p s

/-- At most `n` instructions; `none` if that is not the end. -/
def exec (f : Program) (d : Data) : ℕ → State → Option Step
  | 0, _ => none
  | n + 1, s => match step f d s with
      | .next s' => exec f d n s'
      | o => some o

def start : State := ⟨0, 0, 0, fun _ => 0, fun _ => false⟩

/-- The value `sc_run` returns. -/
def scRun (f : Program) (d : Data) : UInt32 :=
  match exec f d f.count start with
  | some (.ret v) => v
  | _ => 0

/-! ## Soundness -/

variable {f : Program} {d : Data} {s : State} {m : Mask}

/-- All words of the second set are in the first. -/
def Mask.Within (m m' : Mask) : Prop := ∀ k, m.getLsbD k = true → m'.getLsbD k = true

theorem bounds : Forward.Bounds (F := Mask) (· &&& ·) Mask.Within where
  refl _ _ h := h
  trans h1 h2 k h := h2 k (h1 k h)
  left m m' k h := by
    rw [BitVec.getLsbD_and, Bool.and_eq_true] at h
    exact h.1
  right m m' k h := by
    rw [BitVec.getLsbD_and, Bool.and_eq_true] at h
    exact h.2

/-- What an accepted instruction has passed. -/
structure Passed (f : Program) (i : ℕ) (state : Option Mask) (es : List (ℕ × Mask)) (p : Insn)
    (op : Op) : Prop where
  insn : f.insns[i]? = some p
  op_eq : p.op = some op
  check : op.check f i p state = true
  inside : ∀ j ∈ op.next i p, j < f.count
  sent : ∀ m, state = some m → ∀ j ∈ op.next i p, (j, op.mask p m) ∈ es

variable {i : ℕ} {o : Option Mask} {es : List (ℕ × Mask)}

theorem verifyInsn_passed (h : verifyInsn f i o = some es) : ∃ p op, Passed f i o es p op := by
  obtain ⟨p, hp, h⟩ := bind_eq_some_iff.mp h
  obtain ⟨op, hop, h⟩ := bind_eq_some_iff.mp h
  obtain ⟨hc, he⟩ := ite_none_right_eq_some.mp h
  rw [Bool.and_eq_true, List.all_eq_true] at hc
  refine ⟨p, op, hp, hop, hc.1, fun j hj => of_decide_eq_true (hc.2 j hj), ?_⟩
  rintro m rfl j hj
  cases he
  simp only [toList_some, flatMap_cons, flatMap_nil, append_nil]
  exact mem_map.mpr ⟨j, hj, rfl⟩

theorem next_forward {j : ℕ} {p : Insn} {op : Op} (hj : j ∈ op.next i p) : i < j := by
  cases op with
  | retK | retA => simp [Op.next] at hj
  | jump c reg =>
    simp only [Op.next, mem_cons, not_mem_nil, or_false] at hj
    omega
  | _ =>
    simp only [Op.next, mem_singleton] at hj
    omega

theorem verifyInsn_forward (h : verifyInsn f i o = some es) : ∀ e ∈ es, i < e.1 := by
  obtain ⟨p, -, h⟩ := bind_eq_some_iff.mp h
  obtain ⟨op, -, h⟩ := bind_eq_some_iff.mp h
  obtain ⟨-, he⟩ := ite_none_right_eq_some.mp h
  intro e hmem
  rw [← some.inj he] at hmem
  simp only [mem_flatMap, List.mem_map] at hmem
  obtain ⟨-, -, j, hj, rfl⟩ := hmem
  exact next_forward hj

/-- What a run knows at an instruction: a path has reached it, and its words are stored. -/
def Covered (st : ℕ → Option Mask) (s : State) : Prop :=
  ∃ m, st s.pc = some m ∧ ∀ k, m.getLsbD k = true → s.stored k = true

/-- The outcomes the check allows: the end of the run, or a later instruction of the program. -/
def Safe (f : Program) (st : ℕ → Option Mask) (s : State) : Step → Prop
  | .next s' => s.pc < s'.pc ∧ s'.pc < f.count ∧ Covered st s'
  | .ret _ | .kill => True
  | .fault _ => False

section Step
variable {st : ℕ → Option Mask} {p : Insn} {op : Op}

/-- The next instruction is covered if it is a successor and the words of the mask are stored. -/
theorem safe_next (h : Passed f s.pc (some m) es p op)
    (hst : ∀ e ∈ es, ∃ g, st e.1 = some g ∧ Mask.Within g e.2) (off : ℕ) {s' : State}
    (hpc' : s'.pc = s.pc) (hj : s.pc + off + 1 ∈ op.next s.pc p)
    (hk : ∀ k, (op.mask p m).getLsbD k = true → s'.stored k = true) : Safe f st s (s'.go off) := by
  have hin := h.inside _ hj
  have hpc : (s.pc + off + 1) % 2 ^ 32 = s.pc + off + 1 :=
    Nat.mod_eq_of_lt (lt_of_lt_of_le hin (f.le.trans (by decide)))
  obtain ⟨g, hg, hle⟩ := hst _ (h.sent m rfl _ hj)
  rw [go, hpc', hpc]
  exact ⟨by simp only; omega, hin, g, hg, fun k hgk => hk k (hle k hgk)⟩

theorem getLsbD_one_shift {k j : ℕ} (h : (1#16 <<< k).getLsbD j = true) : j = k := by
  simp only [BitVec.getLsbD_shiftLeft, BitVec.getLsbD_one, Bool.and_eq_true,
    Bool.not_eq_eq_eq_not, Bool.not_true, decide_eq_true_eq, decide_eq_false_iff_not] at h
  omega

/-- **An accepted instruction does not fault**, and goes on where its facts are sent. -/
theorem step_safe (h : Passed f s.pc (some m) es p op)
    (hst : ∀ e ∈ es, ∃ g, st e.1 = some g ∧ Mask.Within g e.2)
    (hm : ∀ k, m.getLsbD k = true → s.stored k = true) : Safe f st s (step f d s) := by
  have hc := h.check
  rw [step, h.insn]
  simp only [h.op_eq]
  cases op with
  | ldImm | ldxImm | ldLen | ldxLen | tax | txa | neg =>
    exact safe_next h hst 0 rfl (mem_singleton.mpr rfl) hm
  | ldAbs =>
    simp only [Op.check, decide_eq_true_eq] at hc
    have hw : (d.word p.k.toNat).isSome = true := by
      simp [Data.word, d.size]
      omega
    obtain ⟨w, hw⟩ := isSome_iff_exists.mp hw
    simp only [Op.run, hw]
    exact safe_next h hst 0 rfl (mem_singleton.mpr rfl) hm
  | ldMem | ldxMem =>
    simp only [Op.check, decide_eq_true_eq] at hc
    rw [Op.run, load, if_neg (Nat.not_le.mpr hc.1), if_pos (hm _ hc.2)]
    exact safe_next h hst 0 rfl (mem_singleton.mpr rfl) hm
  | st | stx =>
    simp only [Op.check, decide_eq_true_eq] at hc
    rw [Op.run, store, if_neg (Nat.not_le.mpr hc)]
    refine safe_next h hst 0 rfl (mem_singleton.mpr rfl) fun k hk => ?_
    simp only [Op.mask, BitVec.getLsbD_or, Bool.or_eq_true] at hk
    rcases hk with hk | hk
    · by_cases e : k = p.k.toNat
      · simp [e]
      · simpa [update_of_ne e] using hm k hk
    · simp [getLsbD_one_shift hk]
  | alu o reg =>
    rw [Op.run]
    split
    · trivial
    · exact safe_next h hst 0 rfl (mem_singleton.mpr rfl) hm
  | ja =>
    refine safe_next h hst p.k.toNat rfl (mem_singleton.mpr ?_) hm
    omega
  | jump c reg =>
    refine safe_next h hst _ rfl ?_ hm
    rw [Op.next, mem_pair]
    generalize c.holds s.a _ = b
    cases b with
    | true =>
      simp only [if_true]
      omega
    | false =>
      simp only [Bool.false_eq_true, if_false]
      omega
  | retK | retA => trivial

end Step

/-- From a covered instruction the run ends, without a fault, before it leaves the program. -/
theorem exec_ends {st : ℕ → Option Mask}
    (hst : ∀ i, i < f.count → ∃ es, verifyInsn f i (st i) = some es ∧
      ∀ e ∈ es, ∃ g, st e.1 = some g ∧ Mask.Within g e.2) {n : ℕ} (hs : s.pc < f.count)
    (hn : f.count ≤ s.pc + n) (hc : Covered st s) :
    ∃ o, exec f d n s = some o ∧ ((∃ v, o = .ret v) ∨ o = .kill) := by
  induction n generalizing s with
  | zero => omega
  | succ n ih =>
    obtain ⟨m, hpc, hm⟩ := hc
    obtain ⟨es, hes, hrec⟩ := hst _ hs
    rw [hpc] at hes
    obtain ⟨p, op, hp⟩ := verifyInsn_passed hes
    have hsafe := step_safe (d := d) hp hrec hm
    rw [exec]
    cases hstep : step f d s with
    | next s' =>
      rw [hstep] at hsafe
      obtain ⟨hlt, hin, hcov⟩ := hsafe
      exact ih hin (by omega) hcov
    | ret v => exact ⟨_, rfl, .inl ⟨v, rfl⟩⟩
    | kill => exact ⟨_, rfl, .inr rfl⟩
    | fault e =>
      rw [hstep] at hsafe
      exact hsafe.elim

/-- **An accepted filter runs to its end**: within as many instructions as it has, at a return,
whose value is the result, or a division by zero, which kills, and without a fault. -/
theorem run_of_verified (h : verify f true = 0) (d : Data) :
    ∃ o, exec f d f.count start = some o ∧
      ((∃ v, o = .ret v ∧ scRun f d = v) ∨ (o = .kill ∧ scRun f d = 0)) := by
  simp only [verify, if_true] at h
  split at h
  · exact absurd h (by decide)
  next st hst =>
  have hclosed := fun i (hi : i < f.count) =>
    Forward.pass_closed bounds (fun _ _ _ => verifyInsn_forward) hst hi
  obtain ⟨m, hm, hle⟩ := Forward.pass_below bounds hst 0 0 (by simp [states₀])
  obtain ⟨o, ho, hend⟩ := exec_ends (d := d) (s := start) hclosed f.pos (Nat.le_add_left ..)
    ⟨m, hm, fun k hk => absurd (hle k hk) (by simp)⟩
  refine ⟨o, ho, ?_⟩
  rw [scRun, ho]
  obtain ⟨v, rfl⟩ | rfl := hend
  · exact .inl ⟨v, rfl, rfl⟩
  · exact .inr ⟨rfl, rfl⟩

/-- Store the system call number on one path and zero on the other, then return it. -/
def sample : Program where
  insns :=
    [⟨0x20, 0, 0, 0⟩, ⟨0x15, 1, 0, 7⟩, ⟨0x00, 0, 0, 0⟩, ⟨0x02, 0, 0, 3⟩, ⟨0x60, 0, 0, 3⟩,
      ⟨0x16, 0, 0, 0⟩]
  pos := by decide
  le := by decide

def zeros : Data := ⟨replicate 64 0, by decide⟩

theorem run_of_verified_sample : verify sample true = 0 ∧
    ∃ o, exec sample zeros sample.count start = some o ∧
      ((∃ v, o = .ret v ∧ scRun sample zeros = v) ∨ (o = .kill ∧ scRun sample zeros = 0)) :=
  ⟨by decide +kernel, run_of_verified (by decide +kernel) zeros⟩

/-- Without the store the load is refused. -/
example : verify ⟨[⟨0x15, 1, 0, 7⟩, ⟨0x02, 0, 0, 3⟩, ⟨0x60, 0, 0, 3⟩, ⟨0x16, 0, 0, 0⟩],
    by decide, by decide⟩ true = -22 := by decide +kernel

end AvoryOS.Sched.Seccomp
