import Mathlib.Data.List.Basic
import Mathlib.Logic.Function.Basic
import Mathlib.Data.List.Nodup
import Mathlib.Data.List.Induction

/-!
# Block devices, batches of writes, and what a power cut leaves behind

A device maps block numbers to contents.  Writes are issued in batches; a batch is
waited for before the next one starts, but its members land in any order, so a
machine that stops inside a batch leaves any part of it on the device.

`CrashState d bs d'` says that `d'` is a content the device can have when the machine
stops while the batches `bs` are being issued over `d`.

## Main definitions

* `writeAll ws d` — perform whole-block writes in order.
* `CrashState` — the contents a stop can leave.
* `CrashState.append` — a stop during `as ++ bs` is a stop during one of them.
-/

namespace Device

open Function List

variable {β : Type*}

/-- Perform a list of whole-block writes in order. -/
def writeAll (ws : List (ℕ × β)) (d : ℕ → β) : ℕ → β :=
  ws.foldl (fun d w => update d w.1 w.2) d

@[simp] theorem writeAll_nil (d : ℕ → β) : writeAll [] d = d := rfl

@[simp] theorem writeAll_cons (w : ℕ × β) (ws : List (ℕ × β)) (d : ℕ → β) :
    writeAll (w :: ws) d = writeAll ws (update d w.1 w.2) := rfl

theorem writeAll_append (ws vs : List (ℕ × β)) (d : ℕ → β) :
    writeAll (ws ++ vs) d = writeAll vs (writeAll ws d) := by
  simp [writeAll]

theorem writeAll_other {ws : List (ℕ × β)} {x : ℕ} (h : ∀ w ∈ ws, w.1 ≠ x) (d : ℕ → β) :
    writeAll ws d x = d x := by
  induction ws generalizing d with
  | nil => rfl
  | cons w ws ih =>
    rw [writeAll_cons, ih (fun v hv => h v (mem_cons_of_mem _ hv)),
      update_of_ne (h w mem_cons_self).symm]

/-- Every block holds either what it held before or the contents of one of the writes. -/
theorem writeAll_cases (ws : List (ℕ × β)) (d : ℕ → β) (x : ℕ) :
    writeAll ws d x = d x ∨ ∃ w ∈ ws, w.1 = x ∧ writeAll ws d x = w.2 := by
  induction ws generalizing d with
  | nil => exact .inl rfl
  | cons w ws ih =>
    rw [writeAll_cons]
    rcases ih (update d w.1 w.2) with h | ⟨v, hv, hx, h⟩
    · by_cases hw : w.1 = x
      · subst hw
        exact .inr ⟨w, mem_cons_self, rfl, by rw [h, update_self]⟩
      · exact .inl (by rw [h, update_of_ne (Ne.symm hw)])
    · exact .inr ⟨v, mem_cons_of_mem _ hv, hx, h⟩

theorem writeAll_eq_getLast (ws : List (ℕ × β)) (d : ℕ → β) (x : ℕ) :
    writeAll ws d x = (((ws.filter fun w => w.1 == x).getLast?).map Prod.snd).getD (d x) := by
  induction ws using reverseRecOn generalizing d with
  | nil => rfl
  | append_singleton ws w ih =>
    rw [writeAll_append, writeAll_cons, writeAll_nil]
    by_cases hw : w.1 = x
    · subst hw
      simp
    · rw [update_of_ne (Ne.symm hw), ih]
      simp [hw]

/-- When the writes name distinct blocks, each of them is what its block ends up holding. -/
theorem writeAll_of_mem {ws : List (ℕ × β)} (hnd : (ws.map Prod.fst).Nodup) {w : ℕ × β}
    (hw : w ∈ ws) (d : ℕ → β) : writeAll ws d w.1 = w.2 := by
  induction ws generalizing d with
  | nil => cases hw
  | cons v ws ih =>
    rw [map_cons, nodup_cons] at hnd
    rcases mem_cons.mp hw with rfl | hw
    · rw [writeAll_cons, writeAll_other, update_self]
      intro u hu hne
      exact hnd.1 (mem_map.mpr ⟨u, hu, hne⟩)
    · rw [writeAll_cons, ih hnd.2 hw]

/-- The contents the device can have when the machine stops while a list of batches is
being issued: the batches already waited for are complete, and any part of the current
one has landed. -/
inductive CrashState : (ℕ → β) → List (List (ℕ × β)) → (ℕ → β) → Prop
  | finished (d : ℕ → β) : CrashState d [] d
  /-- The machine stopped inside the first batch. -/
  | torn {d : ℕ → β} {landed batch : List (ℕ × β)} (rest : List (List (ℕ × β)))
      (h : landed.Sublist batch) : CrashState d (batch :: rest) (writeAll landed d)
  | later {d d' : ℕ → β} {batch : List (ℕ × β)} {rest : List (List (ℕ × β))}
      (h : CrashState (writeAll batch d) rest d') : CrashState d (batch :: rest) d'

theorem CrashState.start (d : ℕ → β) (bs : List (List (ℕ × β))) : CrashState d bs d := by
  cases bs with
  | nil => exact .finished d
  | cons b bs =>
    have h : CrashState d (b :: bs) (writeAll [] d) := .torn bs (nil_sublist b)
    exact h

theorem CrashState.between (d : ℕ → β) (as bs : List (List (ℕ × β))) :
    CrashState d (as ++ bs) (writeAll as.flatten d) := by
  induction as generalizing d with
  | nil => exact .start d bs
  | cons a as ih =>
    rw [flatten_cons, writeAll_append]
    exact .later (ih (writeAll a d))

/-- A stop during two groups of batches is a stop during the first group, or during the
second one after the first has completed. -/
theorem CrashState.append {d d' : ℕ → β} {as bs : List (List (ℕ × β))}
    (h : CrashState d (as ++ bs) d') :
    CrashState d as d' ∨ CrashState (writeAll as.flatten d) bs d' := by
  induction as generalizing d with
  | nil => exact .inr h
  | cons a as ih =>
    cases h with
    | torn rest hsub => exact .inl (.torn as hsub)
    | later h =>
      rw [flatten_cons, writeAll_append]
      rcases ih h with h | h
      · exact .inl (.later h)
      · exact .inr h

theorem CrashState.single {d d' : ℕ → β} {w : ℕ × β} (h : CrashState d [[w]] d') :
    d' = d ∨ d' = update d w.1 w.2 := by
  cases h with
  | torn rest hsub =>
    rcases sublist_singleton.mp hsub with rfl | rfl
    · exact .inl rfl
    · exact .inr rfl
  | later h =>
    cases h with
    | finished => exact .inr rfl

/-- What a stop leaves is some of the writes, performed in order. -/
theorem CrashState.exists_sublist {d d' : ℕ → β} {bs : List (List (ℕ × β))}
    (h : CrashState d bs d') : ∃ ws, ws.Sublist bs.flatten ∧ d' = writeAll ws d := by
  induction h with
  | finished d => exact ⟨[], nil_sublist _, rfl⟩
  | torn rest hsub => exact ⟨_, hsub.trans (sublist_append_left _ _), rfl⟩
  | @later d d' batch rest _ ih =>
    obtain ⟨ws, hws, rfl⟩ := ih
    exact ⟨batch ++ ws, (Sublist.refl batch).append hws, (writeAll_append _ _ _).symm⟩

end Device
