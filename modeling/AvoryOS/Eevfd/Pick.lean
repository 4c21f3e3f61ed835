import AvoryOS.Eevfd.Queue
import Mathlib.Data.List.Induction

/-!
# The order of a queue, and the entity that is picked

A queue is sorted, so that a new entity has one place in it, and the entities that may run come
first.  The search for the next entity leaves out subtrees by the least deadline below their root;
it finds what a scan of the whole queue finds.
-/

namespace AvoryOS.Eevfd

open LinkedTree RedBlack Rb Option

variable {se se' : ℕ → Entity} {h : Heap ℕ} {x y z n vtime best : ℕ}
  {k : List (Frame Color)} {t T : RedBlack.Tree} {Q : List ℕ}

/-! ## Least deadlines -/

/-- The least deadline does not depend on the shape of a tree. -/
theorem updateMinDeadline_lawful (se : ℕ → Entity) : Lawful (updateMinDeadline se) := by
  intro f hf x y u v w
  cases hf
  cases u <;> cases v <;> cases w <;> simp only [lower] <;> grind

theorem lower_le_left (d : ℕ) (o : Option ℕ) : lower d o ≤ d := by
  cases o <;> simp only [lower] <;> grind

theorem lower_le_right (d c : ℕ) : lower d (some c) ≤ c := by
  simp only [lower]
  grind

variable {f : ℕ → Option ℕ → Option ℕ → ℕ}

theorem value_le_deadline (hf : updateMinDeadline se = some f)
    {m : ℕ} (hm : value f t = some m) (hx : x ∈ inorder t) : m ≤ (se x).deadline := by
  cases hf
  induction t generalizing m with
  | nil => cases hx
  | node a l r ihl ihr =>
    cases hm
    simp only [inorder, List.mem_append, List.mem_cons] at hx
    rcases hx with hx | rfl | hx
    · cases hl : value _ l with
      | none =>
        cases l with
        | nil => cases hx
        | node b l1 l2 => cases hl
      | some c =>
        exact Nat.le_trans (lower_le_left _ _) (Nat.le_trans (lower_le_right _ c) (ihl hx hl))
    · exact Nat.le_trans (lower_le_left _ _) (lower_le_left _ _)
    cases hr : value _ r with
    | none =>
      cases r with
      | nil => cases hx
      | node b r1 r2 => cases hr
    | some c => exact Nat.le_trans (lower_le_right _ c) (ihr hx hr)

/-! ## The order -/

theorem goesLeft_iff : goesLeft se x y = true ↔ (se x).vruntime < (se y).vruntime ∨
    ((se x).vruntime = (se y).vruntime ∧ ((se x).deadline < (se y).deadline ∨
      ((se x).deadline = (se y).deadline ∧ x < y))) := by
  rw [goesLeft]
  split_ifs with h1 h2
  · simp [h1]
  · simp only [false_iff]
    omega
  · simp only [Bool.or_eq_true, decide_eq_true_eq, Bool.and_eq_true]
    omega

theorem goesLeft_trans (hxy : goesLeft se x y = true) (hyz : goesLeft se y z = true) :
    goesLeft se x z = true := by
  rw [goesLeft_iff] at *
  omega

theorem goesLeft_total (h : x ≠ y) (hxy : goesLeft se x y = false) : goesLeft se y x = true := by
  have hn : ¬goesLeft se x y = true := by simp [hxy]
  rw [goesLeft_iff] at *
  omega

theorem vruntime_le_of_goesLeft (h : goesLeft se x y = true) :
    (se x).vruntime ≤ (se y).vruntime := by
  rw [goesLeft_iff] at h
  omega

def Sorted (se : ℕ → Entity) (Q : List ℕ) : Prop := Q.Pairwise fun x y => goesLeft se x y = true

theorem Sorted.insert {L R : List ℕ} (hs : Sorted se (L ++ R))
    (hL : ∀ y ∈ L, goesLeft se y x = true) (hR : ∀ y ∈ R, goesLeft se x y = true) :
    Sorted se (L ++ x :: R) := by
  rw [Sorted, List.pairwise_append] at hs ⊢
  refine ⟨hs.1, List.pairwise_cons.mpr ⟨hR, hs.2.1⟩, fun y hy z hz => ?_⟩
  rcases List.mem_cons.mp hz with rfl | hz
  · exact hL y hy
  · exact hs.2.2 y hy z hz

theorem Sorted.congr (hs : Sorted se Q) (hv : ∀ x ∈ Q, (se' x).vruntime = (se x).vruntime)
    (hd : ∀ x ∈ Q, (se' x).deadline = (se x).deadline) : Sorted se' Q := by
  refine List.Pairwise.imp_of_mem (fun {x y} hx hy hxy => ?_) hs
  rw [goesLeft_iff] at hxy ⊢
  rwa [hv x hx, hv y hy, hd x hx, hd y hy]

/-- **The link of a new entity**: what is before it is earlier, and what is after it later. -/
theorem descend_spec {lm : Bool} (side : Side) (hat : At h.node h.root k t)
    (hs : Sorted se (inorder (plug k t))) (hx : x ∉ inorder (plug k t))
    (hside : ∀ f k', k = f :: k' → f.side = side) (hlm : lm = true ↔ before k = [])
    (hL : ∀ y ∈ before k, goesLeft se y x = true) (hR : ∀ y ∈ after k, goesLeft se x y = true)
    (hn : (inorder t).length < n) :
    ∃ k' side' lm', plug k t = plug k' .nil ∧
      Repeat.run (descendStep h se x) n (top t, up k, side, lm) = some (up k', side', lm') ∧
      (∀ f k'', k' = f :: k'' → f.side = side') ∧ (lm' = true ↔ before k' = []) ∧
      (∀ y ∈ before k', goesLeft se y x = true) ∧ ∀ y ∈ after k', goesLeft se x y = true := by
  induction n generalizing k t lm side with
  | zero => exact absurd hn (Nat.not_lt_zero _)
  | succ n ih =>
    rcases t with _ | ⟨a, l, r⟩
    · exact ⟨k, side, lm, rfl, rfl, hside, hlm, hL, hR⟩
    obtain ⟨hcl, hcr⟩ := child_node hat
    have ha0 : a.1 ≠ 0 := hat.top_ne_zero (by simp)
    have hxa : x ≠ a.1 := fun e => hx (mem_inorder_plug.mpr (.inl (by simp [inorder, e])))
    obtain ⟨hla, har⟩ : (∀ y ∈ inorder l, goesLeft se y a.1 = true) ∧
        ∀ y ∈ inorder r, goesLeft se a.1 y = true := by
      have hs' := hs
      rw [Sorted, inorder_plug, inorder] at hs'
      simp only [List.pairwise_append, List.pairwise_cons] at hs'
      exact ⟨fun y hy => hs'.1.2.1.2.2 y hy a.1 List.mem_cons_self, hs'.1.2.1.2.1.1⟩
    rw [inorder, List.length_append, List.length_cons] at hn
    show ∃ k' side' lm', _ ∧ Repeat.run (descendStep h se x) (n + 1) (a.1, up k, side, lm) = _ ∧ _
    rw [Repeat.run, descendStep]
    simp only [if_neg ha0]
    cases hgo : goesLeft se x a.1 with
    | true =>
      rw [hcl]
      refine ih .left (k := ⟨.left, a, r⟩ :: k) (At.down hat) hs hx ?_ hlm hL ?_ (by omega)
      · rintro f k' e
        cases e
        rfl
      intro y hy
      simp only [after, List.cons_append, List.mem_cons, List.mem_append] at hy
      rcases hy with rfl | hy | hy
      · exact hgo
      · exact goesLeft_trans hgo (har y hy)
      · exact hR y hy
    | false =>
      have hax := goesLeft_total hxa hgo
      rw [hcr]
      refine ih .right (k := ⟨.right, a, l⟩ :: k) (At.down hat) hs hx ?_ ?_ ?_ hR (by omega)
      · rintro f k' e
        cases e
        rfl
      · simp [before]
      intro y hy
      simp only [before, List.mem_append, List.mem_singleton] at hy
      rcases hy with (hy | hy) | rfl
      · exact hL y hy
      · exact goesLeft_trans (hla y hy) hax
      · exact hax

theorem descend_root (hat : At h.node h.root [] T) (hs : Sorted se (inorder T))
    (hx : x ∉ inorder T) (hn : (inorder T).length < n) : ∃ k side lm, T = plug k .nil ∧
      Repeat.run (descendStep h se x) n (h.root, 0, .left, true) = some (up k, side, lm) ∧
      (∀ f k', k = f :: k' → f.side = side) ∧ (lm = true ↔ before k = []) ∧
      (∀ y ∈ before k, goesLeft se y x = true) ∧ ∀ y ∈ after k, goesLeft se x y = true := by
  obtain ⟨k, side, lm, hplug, hrun, hside, hlm, hL, hR⟩ := descend_spec .left hat hs hx
    (fun f k' e => (by cases e)) (iff_of_true rfl rfl) (fun y hy => (by cases hy))
    (fun y hy => (by cases hy)) hn
  refine ⟨k, side, lm, hplug, ?_, hside, hlm, hL, hR⟩
  rw [hat.root_eq]
  exact hrun

/-! ## The scan -/

/-- One more entity: it is better if it may run and there is none so far, or one with a later
deadline. -/
def better (se : ℕ → Entity) (vtime best x : ℕ) : ℕ :=
  if (se x).vruntime ≤ vtime ∧ (best = 0 ∨ (se x).deadline < (se best).deadline) then x else best

def scan (se : ℕ → Entity) (vtime best : ℕ) (Q : List ℕ) : ℕ := Q.foldl (better se vtime) best

/-- The entity that a scan of the queue picks: the first of the smallest deadline among those that
may run, or the first of the queue. -/
def linearScan (se : ℕ → Entity) (vtime : ℕ) (Q : List ℕ) : ℕ :=
  if scan se vtime 0 Q = 0 then Q.headD 0 else scan se vtime 0 Q

theorem scan_append {R : List ℕ} : scan se vtime best (Q ++ R) =
    scan se vtime (scan se vtime best Q) R := List.foldl_append

theorem scan_cons : scan se vtime best (x :: Q) = scan se vtime (better se vtime best x) Q := rfl

theorem scan_eq_self (h : ∀ x ∈ Q, better se vtime best x = best) :
    scan se vtime best Q = best := by
  induction Q with
  | nil => rfl
  | cons x Q ih =>
    rw [scan_cons, h x List.mem_cons_self]
    exact ih fun y hy => h y (List.mem_cons_of_mem _ hy)

theorem scan_of_le (h0 : best ≠ 0) (h : ∀ x ∈ Q, (se best).deadline ≤ (se x).deadline) :
    scan se vtime best Q = best :=
  scan_eq_self fun x hx => if_neg fun hc => hc.2.elim h0 (h x hx).not_gt

theorem scan_of_lt (h : ∀ x ∈ Q, vtime < (se x).vruntime) : scan se vtime best Q = best :=
  scan_eq_self fun x hx => if_neg fun hc => absurd hc.1 (h x hx).not_ge

/-- The scan may start from the first entity if this may run. -/
theorem scan_self (h0 : x ≠ 0) (hx : (se x).vruntime ≤ vtime) :
    scan se vtime x (x :: Q) = scan se vtime 0 (x :: Q) := by
  have hself : better se vtime x x = x := if_neg fun hc => hc.2.elim h0 (Nat.lt_irrefl _)
  have hzero : better se vtime 0 x = x := if_pos ⟨hx, .inl rfl⟩
  rw [scan_cons, scan_cons, hself, hzero]

theorem linearScan_singleton : linearScan se vtime [x] = x := by
  rw [linearScan, scan_cons]
  rw [better]
  split_ifs <;> first | rfl | contradiction

/-- The first entity is picked if it may run and has the smallest deadline. -/
theorem linearScan_first (h0 : x ≠ 0) (hx : (se x).vruntime ≤ vtime)
    (h : ∀ y ∈ Q, (se x).deadline ≤ (se y).deadline) : linearScan se vtime (x :: Q) = x := by
  have hb : better se vtime 0 x = x := if_pos ⟨hx, .inl rfl⟩
  rw [linearScan, scan_cons, hb, scan_of_le h0 h, if_neg h0]

/-- **The search below a node finds what a scan finds.** -/
theorem pickCandidate_spec (hf : updateMinDeadline se = some f)
    (hat : At h.node h.root k t) (hex : Exact f h.aug t) (hs : Sorted se (inorder t))
    (hn : (inorder t).length < n) :
    pickCandidate h se vtime n (top t) best = some (scan se vtime best (inorder t)) := by
  induction n generalizing k t best with
  | zero => exact absurd hn (Nat.not_lt_zero _)
  | succ n ih =>
    rcases t with _ | ⟨a, l, r⟩
    · rfl
    obtain ⟨hcl, hcr⟩ := child_node hat
    have ha0 : a.1 ≠ 0 := hat.top_ne_zero (by simp)
    have hatl : At h.node h.root (⟨.left, a, r⟩ :: k) l := At.down hat
    have hatr : At h.node h.root (⟨.right, a, l⟩ :: k) r := At.down hat
    have hval : value f (.node a l r) = some (h.aug a.1) := by rw [value, hex.1]
    rw [inorder, List.length_append, List.length_cons] at hn
    rw [Sorted, inorder] at hs
    simp only [List.pairwise_append, List.pairwise_cons] at hs
    obtain ⟨hsl, ⟨har, hsr⟩, -⟩ := hs
    -- a null child is a scan of nothing
    have hchild : ∀ (t : Tree) (b : ℕ), (∃ k', At h.node h.root k' t) →
        Exact f h.aug t → Sorted se (inorder t) → (inorder t).length < n →
        (if top t ≠ 0 then pickCandidate h se vtime n (top t) b else some b) =
          some (scan se vtime b (inorder t)) := by
      rintro t b ⟨k', hat⟩ hex hs hn
      by_cases ht : t = .nil
      · subst ht
        rfl
      · rw [if_pos (hat.top_ne_zero ht)]
        exact ih hat hex hs hn
    show pickCandidate h se vtime (n + 1) a.1 best = _
    rw [pickCandidate, if_neg ha0]
    by_cases hprune : best ≠ 0 ∧ (se best).deadline ≤ h.aug a.1
    · rw [if_pos hprune, scan_of_le hprune.1 fun y hy => Nat.le_trans hprune.2
        (value_le_deadline hf hval hy)]
    simp only [if_neg hprune, hcl, hcr]
    rw [hchild l best ⟨_, hatl⟩ hex.2.1 hsl (by omega), bind_some, inorder, scan_append, scan_cons]
    by_cases hel : (se a.1).vruntime ≤ vtime
    · rw [if_pos hel, hchild r _ ⟨_, hatr⟩ hex.2.2 hsr (by omega)]
      simp [better, hel]
    have hb : better se vtime (scan se vtime best (inorder l)) a.1 =
        scan se vtime best (inorder l) := if_neg fun hc => hel hc.1
    have hlate : ∀ y ∈ inorder r, vtime < (se y).vruntime := fun y hy =>
      Nat.lt_of_lt_of_le (Nat.lt_of_not_le hel) (vruntime_le_of_goesLeft (har y hy))
    rw [if_neg hel, hb, scan_of_lt hlate]

/-- The first entity of the smallest deadline among those that may run. -/
def Earliest (se : ℕ → Entity) (vtime : ℕ) (Q : List ℕ) (p : ℕ) : Prop :=
  ∃ L R, Q = L ++ p :: R ∧ (se p).vruntime ≤ vtime ∧
    (∀ y ∈ L, (se y).vruntime ≤ vtime → (se p).deadline < (se y).deadline) ∧
    ∀ y ∈ R, (se y).vruntime ≤ vtime → (se p).deadline ≤ (se y).deadline

theorem scan_spec (se : ℕ → Entity) (vtime : ℕ) (h0 : 0 ∉ Q) :
    (scan se vtime 0 Q = 0 ∧ ∀ x ∈ Q, vtime < (se x).vruntime) ∨
      (scan se vtime 0 Q ≠ 0 ∧ Earliest se vtime Q (scan se vtime 0 Q)) := by
  induction Q using List.reverseRecOn with
  | nil => exact .inl ⟨rfl, fun x hx => (by cases hx)⟩
  | append_singleton Q x ih =>
    rw [List.mem_append, List.mem_singleton, not_or] at h0
    rw [scan_append]
    show (better se vtime _ x = 0 ∧ _) ∨
      (better se vtime _ x ≠ 0 ∧ Earliest _ _ _ (better se vtime _ x))
    rcases ih h0.1 with ⟨e, hnone⟩ | ⟨hne, L, R, hQ, hp, hL, hR⟩
    · rw [e]
      by_cases hx : (se x).vruntime ≤ vtime
      · have hb : better se vtime 0 x = x := if_pos ⟨hx, .inl rfl⟩
        rw [hb]
        refine .inr ⟨Ne.symm h0.2, Q, [], rfl, hx, fun y hy h => ?_, fun y hy => (by cases hy)⟩
        exact absurd (hnone y hy) (Nat.not_lt.mpr h)
      have hb : better se vtime 0 x = 0 := if_neg fun h => hx h.1
      rw [hb]
      refine .inl ⟨rfl, fun y hy => ?_⟩
      rcases List.mem_append.mp hy with hy | hy
      · exact hnone y hy
      · rw [List.mem_singleton.mp hy]
        exact Nat.lt_of_not_le hx
    generalize scan se vtime 0 Q = p at hne hQ hp hL hR ⊢
    by_cases hx : (se x).vruntime ≤ vtime ∧ (se x).deadline < (se p).deadline
    · have hb : better se vtime p x = x := if_pos ⟨hx.1, .inr hx.2⟩
      rw [hb]
      refine .inr ⟨Ne.symm h0.2, Q, [], rfl, hx.1, fun y hy h => ?_, fun y hy => (by cases hy)⟩
      rw [hQ, List.mem_append, List.mem_cons] at hy
      rcases hy with hy | rfl | hy
      · exact Nat.lt_trans hx.2 (hL y hy h)
      · exact hx.2
      · exact Nat.lt_of_lt_of_le hx.2 (hR y hy h)
    · have hb : better se vtime p x = p := if_neg fun h => hx ⟨h.1, h.2.resolve_left hne⟩
      rw [hb]
      refine .inr ⟨hne, L, R ++ [x], by rw [hQ]; simp, hp, hL, fun y hy h => ?_⟩
      rcases List.mem_append.mp hy with hy | hy
      · exact hR y hy h
      · rw [List.mem_singleton.mp hy] at h ⊢
        exact Nat.le_of_not_lt fun hlt => hx ⟨h, hlt⟩

/-- **What the scan of a queue picks.** -/
theorem linearScan_spec (se : ℕ → Entity) (vtime : ℕ) (h0 : 0 ∉ Q) :
    ((∃ x ∈ Q, (se x).vruntime ≤ vtime) → Earliest se vtime Q (linearScan se vtime Q)) ∧
      ((∀ x ∈ Q, vtime < (se x).vruntime) → linearScan se vtime Q = Q.headD 0) := by
  rw [linearScan]
  rcases scan_spec se vtime h0 with ⟨e, hnone⟩ | ⟨hne, hp⟩
  · rw [if_pos e]
    exact ⟨fun ⟨x, hx, hle⟩ => absurd (hnone x hx) (Nat.not_lt.mpr hle), fun _ => rfl⟩
  rw [if_neg hne]
  refine ⟨fun _ => hp, fun hnone => ?_⟩
  obtain ⟨L, R, hQ, hle, -⟩ := hp
  have hmem : scan se vtime 0 Q ∈ L ++ scan se vtime 0 Q :: R := by simp
  rw [← hQ] at hmem
  exact absurd (hnone _ hmem) (Nat.not_lt.mpr hle)

end AvoryOS.Eevfd
