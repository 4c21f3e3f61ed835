import AvoryOS.Zram.Lz4

/-!
# The memory accesses of the decoder

The decoder again, with its positions instead of lists.  Every read and write is checked against
its buffer, a byte of the output is there only once it was written, and `size_t` wraps around.
It computes what `decompress` does.
-/

namespace AvoryOS.Zram.Decoder

open CopyBack

/-- An access outside a buffer or of a byte that was not written, the result `-1`, or a loop that
is not done. -/
inductive Stop
  | fault
  | reject
  | fuel

abbrev M := Except Stop

abbrev Out := ℕ → Option UInt8

def add (a b : ℕ) : ℕ := (a + b) % 2 ^ 64

def sub (a b : ℕ) : ℕ := (a + 2 ^ 64 - b) % 2 ^ 64

def load : Option UInt8 → M UInt8
  | none => .error .fault
  | some b => .ok b

def store (expected : ℕ) (out : Out) (i : ℕ) (b : UInt8) : M Out :=
  if i < expected then .ok (Function.update out i (some b)) else .error .fault

/-- Return `-1` if `p` holds. -/
def reject (p : Prop) [Decidable p] : M Unit := if p then .error .reject else .ok ()

/-- The position and the value after the further bytes of a length. -/
def length (inp : Bytes) : ℕ → ℕ → ℕ → M (ℕ × ℕ)
  | 0, _, _ => .error .fuel
  | fuel + 1, pos, value => do
    reject (inp.length ≤ pos)
    let b ← load inp[pos]?
    reject (sub (2 ^ 64 - 1) b.toNat < value)
    if b = 255 then length inp fuel (add pos 1) (add value b.toNat)
    else pure (add pos 1, add value b.toNat)

def halfToken (inp : Bytes) (fuel half base pos : ℕ) : M (ℕ × ℕ) :=
  if half = 15 then length inp fuel pos (half + base) else pure (pos, half + base)

/-- Write bytes at `done`; `src out i` is where the `i`th comes from. -/
def copy (expected done : ℕ) (src : Out → ℕ → Option UInt8) : ℕ → Out → M Out
  | 0, out => pure out
  | i + 1, out => do
    let out ← copy expected done src i out
    let b ← load (src out i)
    store expected out (add done i) b

structure State where
  pos : ℕ
  done : ℕ
  out : Out

/-- One turn of the loop: the next state, or the output of a block that is complete. -/
def turn (inp : Bytes) (expected fuel : ℕ) (s : State) : M (State ⊕ Out) := do
  let token ← load inp[s.pos]?
  let literal ← halfToken inp fuel (token >>> 4).toNat 0 (add s.pos 1)
  reject (sub inp.length literal.1 < literal.2 ∨ sub expected s.done < literal.2)
  let out ← copy expected s.done (fun _ i => inp[add literal.1 i]?) literal.2 s.out
  let done := add s.done literal.2
  let pos := add literal.1 literal.2
  if pos = inp.length then do
    reject (done ≠ expected)
    pure (.inr out)
  else do
    reject (sub inp.length pos < 2)
    let lo ← load inp[pos]?
    let hi ← load inp[add pos 1]?
    let distance := lo.toNat ||| hi.toNat <<< 8
    reject (distance = 0 ∨ done < distance)
    let m ← halfToken inp fuel (token &&& 15).toNat 4 (add pos 2)
    reject (sub expected done < m.2)
    let out ← copy expected done (fun out i => out (sub (add done i) distance)) m.2 out
    pure (.inl ⟨m.1, add done m.2, out⟩)

def loop (inp : Bytes) (expected fuel : ℕ) : ℕ → State → M Out
  | 0, _ => .error .fuel
  | n + 1, s =>
    if s.pos < inp.length then do
      let r ← turn inp expected fuel s
      r.elim (loop inp expected fuel n) pure
    else .error .reject

/-- `fuel` bounds the turns of each loop. -/
def zramLz4Decompress (inp : Bytes) (expected fuel : ℕ) : M Out :=
  if inp.length = 0 then .error .reject else loop inp expected fuel fuel ⟨0, 0, fun _ => none⟩

/-! ## The positions and the lists -/

section Rules

variable {α β γ δ : Type} {P : α → γ → Prop} {Q : β → δ → Prop}

/-- The code returns `-1` where the function of lists has no result, and otherwise their results
are related. -/
def Agrees (m : M α) (o : Option γ) (P : α → γ → Prop) : Prop :=
  m = .error .reject ∧ o = none ∨ ∃ a c, m = .ok a ∧ o = some c ∧ P a c

theorem Agrees.pure {a : α} {c : γ} (h : P a c) : Agrees (pure a) (some c) P :=
  .inr ⟨a, c, rfl, rfl, h⟩

theorem Agrees.bind {m : M α} {f : α → M β} {o : Option γ} {g : γ → Option δ} (hm : Agrees m o P)
    (hf : ∀ a c, P a c → Agrees (f a) (g c) Q) : Agrees (m >>= f) (o.bind g) Q := by
  obtain ⟨rfl, rfl⟩ | ⟨a, c, rfl, rfl, h⟩ := hm
  · exact .inl ⟨rfl, rfl⟩
  · exact hf a c h

theorem Agrees.ok {m : M α} {a : α} {f : α → M β} {o : Option δ} (hm : m = .ok a)
    (hf : Agrees (f a) o Q) : Agrees (m >>= f) o Q := by
  rw [hm]
  exact hf

theorem Agrees.reject {p q : Prop} [Decidable p] [Decidable q] {f : Unit → M β} {o : Option δ}
    (hpq : p ↔ q) (h : ¬ q → Agrees (f ()) o Q) :
    Agrees (reject p >>= f) (if q then none else o) Q := by
  rw [Decoder.reject]
  by_cases hq : q
  · rw [if_pos (hpq.mpr hq), if_pos hq]
    exact .inl ⟨rfl, rfl⟩
  · rw [if_neg (mt hpq.mp hq), if_neg hq]
    exact h hq

end Rules

theorem add_eq {a b : ℕ} (h : a + b < 2 ^ 64) : add a b = a + b := Nat.mod_eq_of_lt h

theorem sub_eq {a b : ℕ} (h : b ≤ a) (ha : a < 2 ^ 64) : sub a b = a - b := by
  rw [sub]
  omega

variable {inp : Bytes} {expected fuel : ℕ}

/-- The value of a length and the input after it, as a position from `pos` on and as a list. -/
def LengthAt (inp : Bytes) (pos : ℕ) (r : ℕ × ℕ) (q : ℕ × Bytes) : Prop :=
  r.2 = q.1 ∧ q.2 = inp.drop r.1 ∧ pos ≤ r.1 ∧ r.1 ≤ inp.length

theorem length_agrees {pos value : ℕ} (hn : inp.length < 2 ^ 64) (hle : pos ≤ inp.length)
    (hv : value < 2 ^ 64) (hfuel : inp.length < fuel + pos) :
    Agrees (length inp fuel pos value) (Zram.length (inp.drop pos) value) (LengthAt inp pos) := by
  induction fuel generalizing pos value with
  | zero => omega
  | succ fuel ih =>
    rw [length]
    obtain hpos | hpos := Nat.eq_or_lt_of_le hle
    · rw [reject, if_pos (Nat.le_of_eq hpos.symm), hpos, List.drop_length]
      exact .inl ⟨rfl, rfl⟩
    rw [reject, if_neg hpos.not_ge, List.getElem?_eq_getElem hpos, List.drop_eq_getElem_cons hpos,
      Zram.length]
    have hlt := inp[pos].toNat_lt
    refine Agrees.reject (by rw [sub_eq (by omega) (by omega)]) fun hb => ?_
    have hsum : value + inp[pos].toNat < 2 ^ 64 := by omega
    rw [add_eq hsum, add_eq (by omega)]
    split
    · obtain h | ⟨r, q, h, h', hr, hq, hle, hrest⟩ := ih hpos hsum (by omega)
      · exact .inl h
      · exact .inr ⟨r, q, h, h', hr, hq, by omega, hrest⟩
    · exact Agrees.pure ⟨rfl, rfl, Nat.le_succ _, hpos⟩

theorem halfToken_agrees {half base pos : ℕ} (hn : inp.length < 2 ^ 64) (hpos : pos ≤ inp.length)
    (hv : half + base < 2 ^ 64) (hfuel : inp.length < fuel) :
    Agrees (halfToken inp fuel half base pos) (Zram.halfToken half base (inp.drop pos))
      (LengthAt inp pos) := by
  rw [halfToken, Zram.halfToken]
  split
  · exact length_agrees hn hpos hv (by omega)
  · exact Agrees.pure ⟨rfl, rfl, le_rfl, hpos⟩

/-- The output buffer with the bytes of a list. -/
def filled (l : Bytes) : Out := fun i => l[i]?

theorem update_filled (l : Bytes) (b : UInt8) :
    Function.update (filled l) l.length (some b) = filled (l ++ [b]) := by
  funext i
  rw [Function.update_apply, filled, filled, List.getElem?_append]
  split
  · next h => rw [h, if_neg (lt_irrefl _), Nat.sub_self, List.getElem?_cons_zero]
  · next h =>
    split
    · rfl
    · rw [List.getElem?_eq_none (by omega), List.getElem?_eq_none (by simp; omega)]

/-- **A copy stays below `expected` and appends to the list**, one byte at a time. -/
theorem copy_eq {done count : ℕ} (src : Out → ℕ → Option UInt8) (l : ℕ → Bytes)
    (he : expected < 2 ^ 64) (hdone : done + count ≤ expected) (hl : (l 0).length = done)
    (hsrc : ∀ i < count, (l i).length = done + i →
      ∃ b, src (filled (l i)) i = some b ∧ l (i + 1) = l i ++ [b]) :
    copy expected done src count (filled (l 0)) = .ok (filled (l count)) ∧
      (l count).length = done + count := by
  induction count with
  | zero => exact ⟨rfl, hl⟩
  | succ i ih =>
    obtain ⟨hcopy, hlen⟩ := ih (by omega) fun j hj => hsrc j (by omega)
    obtain ⟨b, hb, hnext⟩ := hsrc i (Nat.lt_succ_self i) hlen
    have hstep : copy expected done src (i + 1) (filled (l 0)) =
        store expected (filled (l i)) (add done i) b := by
      rw [copy, hcopy]
      exact congrArg (load · >>= _) hb
    rw [hstep, store, add_eq (by omega), if_pos (by omega), ← hlen, update_filled, hnext,
      List.length_append, hlen]
    exact ⟨rfl, rfl⟩

theorem copy_literals {p count : ℕ} {l : Bytes} (hn : inp.length < 2 ^ 64) (he : expected < 2 ^ 64)
    (hp : p + count ≤ inp.length) (hdone : l.length + count ≤ expected) :
    copy expected l.length (fun _ i => inp[add p i]?) count (filled l) =
      .ok (filled (l ++ (inp.drop p).take count)) := by
  have h := copy_eq (fun _ i => inp[add p i]?) (fun i => l ++ (inp.drop p).take i) he hdone
    (by simp) fun i hi _ => by
      refine ⟨inp[p + i], ?_, ?_⟩
      · rw [add_eq (by omega), List.getElem?_eq_getElem]
      · rw [List.take_add_one, List.getElem?_drop, List.getElem?_eq_getElem (by omega),
          Option.toList_some, List.append_assoc]
  rw [List.take_zero, List.append_nil] at h
  exact h.1

/-- The source of byte `i` of a match lies before `done + i`. -/
theorem copy_match {d count : ℕ} {l : Bytes} (he : expected < 2 ^ 64) (hd : 0 < d)
    (hle : d ≤ l.length) (hdone : l.length + count ≤ expected) :
    copy expected l.length (fun out i => out (sub (add l.length i) d)) count (filled l) =
        .ok (filled (copyBack d count l)) ∧
      (copyBack d count l).length = l.length + count := by
  refine copy_eq _ (copyBack d · l) he hdone rfl fun i hi hlen => ?_
  have hlt : l.length + i - d < (copyBack d i l).length := by omega
  refine ⟨(copyBack d i l)[l.length + i - d], ?_, ?_⟩
  · rw [add_eq (by omega), sub_eq (by omega) (by omega), filled, List.getElem?_eq_getElem]
  · rw [copyBack_succ, hlen, List.getElem?_eq_getElem hlt, Option.toList_some]

/-- The state of the loop has read the input up to `pos` and written `l`. -/
structure Inv (inp : Bytes) (expected : ℕ) (s : State) (l : Bytes) : Prop where
  pos : s.pos ≤ inp.length
  done : s.done ≤ expected
  length : l.length = s.done
  out : s.out = filled l

/-- The output of a complete block. -/
def Complete (expected : ℕ) (out : Out) (l : Bytes) : Prop := out = filled l ∧ l.length = expected

theorem distance_eq (lo hi : UInt8) :
    lo.toNat ||| hi.toNat <<< 8 = lo.toNat + hi.toNat <<< 8 := by
  rw [Nat.or_comm, ← Nat.shiftLeft_add_eq_or_of_lt lo.toNat_lt, Nat.add_comm]

/-- A turn and what follows it read a sequence and what follows it. -/
theorem turn_agrees {s : State} {l : Bytes} {next : State → M Out} (hn : inp.length < 2 ^ 64)
    (he : expected < 2 ^ 64) (hfuel : inp.length < fuel) (hs : Inv inp expected s l)
    (hpos : s.pos < inp.length)
    (hnext : ∀ s' l', Inv inp expected s' l' → s.pos < s'.pos →
      Agrees (next s') (decode expected l' (inp.drop s'.pos)) (Complete expected)) :
    Agrees (turn inp expected fuel s >>= fun r => r.elim next pure)
      (decode expected l (inp.drop s.pos)) (Complete expected) := by
  obtain ⟨pos, done, out⟩ := s
  obtain ⟨-, hdone, rfl, rfl⟩ := hs
  dsimp only at hpos hdone hnext ⊢
  have hhalf (b : UInt8) : b.toNat + 4 < 2 ^ 64 := by
    have := b.toNat_lt
    omega
  rw [turn, List.drop_eq_getElem_cons hpos, decode_cons]
  dsimp only
  rw [add_eq (by omega)]
  simp only [bind_assoc]
  refine Agrees.ok (a := inp[pos]) (by rw [List.getElem?_eq_getElem hpos, load]) ?_
  refine (halfToken_agrees hn hpos (by have := hhalf (inp[pos] >>> 4); omega) hfuel).bind ?_
  rintro ⟨p, literal⟩ ⟨_, _⟩ ⟨rfl, rfl, hp, hpn⟩
  dsimp only at hp hpn ⊢
  refine Agrees.reject (by rw [sub_eq hpn hn, sub_eq hdone he, List.length_drop]) fun hlit => ?_
  rw [List.length_drop] at hlit
  refine Agrees.ok (copy_literals hn he (by omega) (by omega)) ?_
  have hlen : (l ++ (inp.drop p).take literal).length = l.length + literal := by
    rw [List.length_append, List.length_take, List.length_drop]
    omega
  rw [add_eq (by omega), add_eq (by omega), ← hlen, List.drop_drop]
  generalize l ++ (inp.drop p).take literal = l' at hlen ⊢
  -- what is left of the input: nothing, one byte, or a distance and more
  rcases hd : inp.drop (p + literal) with _ | ⟨lo, _ | ⟨hi, rest⟩⟩
  all_goals
    have hleft := congrArg List.length hd
    simp only [List.length_drop, List.length_cons, List.length_nil] at hleft
  · rw [if_pos (by omega), ← ite_not]
    simp only [bind_assoc, pure_bind]
    exact Agrees.reject Iff.rfl fun hall => Agrees.pure ⟨rfl, not_not.mp hall⟩
  · rw [if_neg (by omega), sub_eq (by omega) hn, hleft, reject, if_pos (by decide)]
    exact .inl ⟨rfl, rfl⟩
  · have hlo : inp[p + literal]? = some lo := by
      rw [← Nat.add_zero (p + literal), ← List.getElem?_drop, hd]
      rfl
    have hhi : inp[p + literal + 1]? = some hi := by
      rw [← List.getElem?_drop, hd]
      rfl
    obtain rfl : rest = inp.drop (p + literal + 2) := by
      rw [← List.drop_drop, hd]
      rfl
    rw [if_neg (by omega), sub_eq (by omega) hn, reject, if_neg (by omega)]
    simp only [bind_assoc, pure_bind]
    rw [add_eq (by omega), add_eq (by omega), hlo, hhi]
    refine Agrees.ok (a := ()) rfl ?_
    refine Agrees.ok (a := lo) rfl ?_
    refine Agrees.ok (a := hi) rfl ?_
    rw [distance_eq]
    refine Agrees.reject Iff.rfl fun hdist => ?_
    refine (halfToken_agrees hn (by omega) (hhalf _) hfuel).bind ?_
    rintro ⟨q, m⟩ ⟨_, _⟩ ⟨rfl, rfl, hq, hqn⟩
    dsimp only at hq hqn ⊢
    refine Agrees.reject (by rw [sub_eq (by omega) he]) fun hm => ?_
    obtain ⟨hcopy, hdone'⟩ := copy_match he (by omega) (not_lt.mp (not_or.mp hdist).2)
      (show l'.length + m ≤ expected by omega)
    refine Agrees.ok hcopy ?_
    rw [add_eq (by omega), ← hdone']
    exact hnext ⟨q, _, _⟩ _ ⟨hqn, by dsimp only; omega, rfl, rfl⟩ (by dsimp only; omega)

theorem loop_agrees {n : ℕ} {s : State} {l : Bytes} (hn : inp.length < 2 ^ 64)
    (he : expected < 2 ^ 64) (hfuel : inp.length < fuel) (hs : Inv inp expected s l)
    (hm : inp.length < n + s.pos) :
    Agrees (loop inp expected fuel n s) (decode expected l (inp.drop s.pos))
      (Complete expected) := by
  induction n generalizing s l with
  | zero =>
    have := hs.pos
    omega
  | succ n ih =>
    rw [loop]
    split
    · exact turn_agrees hn he hfuel hs ‹_› fun s' l' hs' hlt => ih hs' (by omega)
    · next h =>
      rw [List.drop_eq_nil_of_le (not_lt.mp h), decode]
      exact .inl ⟨rfl, rfl⟩

/-- **The positions compute what the lists say.** -/
theorem zramLz4Decompress_agrees (hn : inp.length < 2 ^ 64) (he : expected < 2 ^ 64)
    (hfuel : inp.length < fuel) :
    Agrees (zramLz4Decompress inp expected fuel) (decompress inp expected)
      (Complete expected) := by
  rw [zramLz4Decompress, decompress]
  split
  · exact .inl ⟨rfl, rfl⟩
  · exact loop_agrees (s := ⟨0, 0, _⟩) hn he hfuel ⟨Nat.zero_le _, Nat.zero_le _, rfl, rfl⟩
      (by dsimp only; omega)

/-- **Decompression is safe on arbitrary bytes.**  Within as many turns as there are bytes and one
more, the call returns without a bad access: with `-1`, or with `0` after exactly the bytes
below `expected` were written. -/
theorem zram_lz4_decompress_safe (inp : Bytes) (expected fuel : ℕ) (hn : inp.length < 2 ^ 64)
    (he : expected < 2 ^ 64) (hfuel : inp.length < fuel) :
    zramLz4Decompress inp expected fuel = .error .reject ∨
      ∃ out, zramLz4Decompress inp expected fuel = .ok out ∧
        ∀ i, (out i).isSome ↔ i < expected := by
  obtain ⟨h, -⟩ | ⟨out, l, h, -, rfl, rfl⟩ := zramLz4Decompress_agrees hn he hfuel
  · exact .inl h
  · exact .inr ⟨_, h, fun i => by simp [filled]⟩

/-- One literal and a match of four bytes that reads what it writes, then an empty block end. -/
theorem zram_lz4_decompress_run :
    ∃ out, zramLz4Decompress [0x10, 7, 1, 0, 0] 5 6 = .ok out ∧
      ∀ i, (out i).isSome ↔ i < 5 := by
  obtain h | h := zram_lz4_decompress_safe [0x10, 7, 1, 0, 0] 5 6 (by decide) (by decide)
    (by decide)
  · cases h
  · exact h

end AvoryOS.Zram.Decoder
