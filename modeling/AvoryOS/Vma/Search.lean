import AvoryOS.Vma.Invariant
import Mathlib.Order.Bounds.Defs

/-!
# Searches for a gap and for a stack

`vma_find_gap` goes through the regions in order.  `vma_find_growdown` takes the first stack it
comes to, in the cache and then in the tree, and computes the end of the reach of a stack in 64
bits.
-/

namespace AvoryOS.Vma

open Vma.Tree List

/-! ## Gaps -/

/-- The loop of `vma_find_gap`, and what follows it. -/
def gapLoop (length limit : ℕ) : ℕ → List Region → ℕ
  | current, [] => if current < limit ∧ length ≤ limit - current then current else 0
  | current, v :: vs =>
    if v.stop ≤ current then gapLoop length limit current vs
    else if current < v.start ∧ length ≤ v.start - current ∧ current < limit ∧
        length ≤ limit - current then current
    else gapLoop length limit (max current v.stop) vs

/-- `room` says whether the array for more than `64` nodes is allocated. -/
def vmaFindGap (l : VmaList) (length base limit : ℕ) (room : Bool) : ℕ :=
  if length = 0 ∨ limit ≤ base ∨ limit - base < length then 0
  else if l.count = 0 then if base + length ≤ limit then base else 0
  else if 64 < l.count ∧ !room then 0
  else gapLoop length limit base l.regions

/-- The range from `a` is between `base` and `limit`, and in no region. -/
def Fits (vs : List Region) (length base limit a : ℕ) : Prop :=
  base ≤ a ∧ a + length ≤ limit ∧ ∀ v ∈ vs, ¬v.Meets a (a + length)

theorem fits_cons {v : Region} {vs : List Region} {length base limit a : ℕ} :
    Fits (v :: vs) length base limit a ↔
      Fits vs length base limit a ∧ (a < v.stop → a + length ≤ v.start) := by
  rw [Fits, Fits, forall_mem_cons, Region.Meets, not_and, Nat.not_lt]
  tauto

/-- The loop finds the lowest address that fits, or there is none. -/
theorem gapLoop_spec {vs : List Region} {length : ℕ} (hlen : 0 < length) (limit current : ℕ)
    (hvs : vs.Pairwise fun v w => v.start ≤ w.start) :
    IsLeast {a | Fits vs length current limit a} (gapLoop length limit current vs) ∨
      gapLoop length limit current vs = 0 ∧ ∀ a, ¬Fits vs length current limit a := by
  induction vs generalizing current with
  | nil =>
    rw [gapLoop]
    split_ifs with h
    · exact .inl ⟨⟨le_rfl, by omega, by simp⟩, fun a ha => ha.1⟩
    · exact .inr ⟨rfl, fun a ha => h (by have := ha.1; have := ha.2.1; omega)⟩
  | cons v vs ih =>
    obtain ⟨hv, hvs⟩ := pairwise_cons.mp hvs
    -- the loop goes on from an address below which nothing fits
    have hnext : ∀ c, (∀ a, Fits (v :: vs) length current limit a ↔ Fits vs length c limit a) →
        IsLeast {a | Fits (v :: vs) length current limit a} (gapLoop length limit c vs) ∨
          gapLoop length limit c vs = 0 ∧ ∀ a, ¬Fits (v :: vs) length current limit a := by
      intro c hc
      simp only [hc]
      exact ih c hvs
    rw [gapLoop]
    split_ifs with hbefore hgap
    · refine hnext current fun a => ?_
      rw [fits_cons]
      exact and_iff_left_of_imp fun ha h => absurd (hbefore.trans ha.1) (Nat.not_le.mpr h)
    · refine .inl ⟨⟨le_rfl, by omega, ?_⟩, fun a ha => ha.1⟩
      rw [forall_mem_cons]
      simp only [Region.Meets]
      exact ⟨by omega, fun w hw => by have := hv w hw; omega⟩
    · refine hnext _ fun a => ?_
      rw [fits_cons, Fits, Fits, max_le_iff]
      constructor
      · rintro ⟨⟨hc, hl, h⟩, hs⟩
        exact ⟨⟨hc, by omega⟩, hl, h⟩
      · rintro ⟨⟨hc, hs⟩, hl, h⟩
        exact ⟨⟨hc, hl, h⟩, by omega⟩

/-- **The gap search returns the lowest address that fits, and `0` exactly if there is none.** -/
theorem find_gap_lowest {l : VmaList} (hi : Inv l) {length base limit : ℕ} (hlen : 0 < length)
    (hbase : 0 < base) (hlt : base < limit) :
    (vmaFindGap l length base limit true = 0 ↔ ∀ a, ¬Fits l.regions length base limit a) ∧
      (vmaFindGap l length base limit true ≠ 0 →
        IsLeast {a | Fits l.regions length base limit a}
          (vmaFindGap l length base limit true)) := by
  obtain ⟨hapart, hpos⟩ := hi.regions_apart
  have hloop := gapLoop_spec hlen limit base
    (hapart.imp_of_mem fun hv _ h => (hpos _ hv).le.trans h)
  have hres : IsLeast {a | Fits l.regions length base limit a}
      (vmaFindGap l length base limit true) ∨
      vmaFindGap l length base limit true = 0 ∧ ∀ a, ¬Fits l.regions length base limit a := by
    rw [vmaFindGap]
    split_ifs with hno hcount hfit h64
    · exact .inr ⟨rfl, fun a ha => by have := ha.1; have := ha.2.1; omega⟩
    · have hnil : l.regions = [] := by
        have hlen : l.root.entries.length = 0 := by have := hi.count; omega
        rw [VmaList.regions, length_eq_zero_iff.mp hlen, map_nil]
      rw [hnil]
      exact .inl ⟨⟨le_rfl, hfit, by simp⟩, fun a ha => ha.1⟩
    · omega
    · exact absurd h64.2 (by decide)
    · exact hloop
  obtain h | ⟨h0, hnone⟩ := hres
  · exact ⟨iff_of_false (hbase.trans_le h.1.1).ne' fun hno => hno _ h.1, fun _ => h⟩
  · exact ⟨iff_of_true h0 hnone, fun h => absurd h0 h⟩

def twoStacks : VmaList :=
  (vmaAdd .endless (vmaAdd .endless vmaListInit 0x5000 0x6000 3 0x122 (-1) 0 0 0).2 0x3000 0x4000 3
    0x122 (-1) 0 0 0).2

theorem inv_twoStacks : Inv twoStacks :=
  (inv_vmaListInit.add .endless (by decide) 3 0x122 (-1) 0 0 0).add .endless (by decide) 3 0x122
    (-1) 0 0 0

theorem find_gap_between : IsLeast {a | Fits twoStacks.regions 0x1000 0x3000 0x9000 a} 0x4000 :=
  (find_gap_lowest inv_twoStacks (by decide) (by decide) (by decide)).2 (by decide +kernel)

/-! ## Stacks -/

/-- `MAP_GROWSDOWN` and the two comparisons, in 64 bits. -/
def grows (addr limit : ℕ) (v : Region) : Bool :=
  v.flags &&& mapGrowsdown ≠ 0 ∧ addr < v.start ∧ (v.start + 2 ^ 64 - limit) % 2 ^ 64 ≤ addr

def Tree.findGrowdown (addr limit : ℕ) : Tree → Option (ℕ × Region)
  | nil => none
  | node p v _ _ l r =>
    match l.findGrowdown addr limit with
    | some e => some e
    | none => if grows addr limit v then some (p, v) else r.findGrowdown addr limit

def cachedStack (m : Memory) (l : VmaList) (addr limit : ℕ) : Option ℕ :=
  l.cache.nodes.find? fun p => grows addr limit (m.load l.root p)

def vmaFindGrowdown (m : Memory) (l : VmaList) (addr limit : ℕ) : Option (ℕ × Region) :=
  match cachedStack m l addr limit with
  | some p => some (p, m.load l.root p)
  | none => l.root.findGrowdown addr limit

/-- A stack that starts above the address, by at most the limit. -/
def Within (addr limit : ℕ) (v : Region) : Prop :=
  v.flags &&& mapGrowsdown ≠ 0 ∧ addr < v.start ∧ v.start ≤ addr + limit

instance (addr limit : ℕ) : DecidablePred (Within addr limit) :=
  fun _ => inferInstanceAs (Decidable (_ ∧ _ ∧ _))

/-- The stack that is nearest to the address. -/
def Nearest (l : VmaList) (addr limit : ℕ) (e : ℕ × Region) : Prop :=
  e ∈ l.root.entries ∧ Within addr limit e.2 ∧
    ∀ d ∈ l.root.entries, Within addr limit d.2 → e.2.start ≤ d.2.start

/-- In the cache, another stack within the limit stands only behind the entry. -/
def FirstCached (l : VmaList) (addr limit : ℕ) (e : ℕ × Region) : Prop :=
  ∀ d ∈ l.root.entries, Within addr limit d.2 → ∀ i < l.cache.nodes.length,
    l.cache.nodes[i]? = some d.1 → d.1 = e.1 ∨ e.1 ∈ l.cache.nodes.take i

/-- The answer is the nearest stack, or there is none. -/
def Picks (l : VmaList) (addr limit : ℕ) : Option (ℕ × Region) → Prop
  | none => ∀ e ∈ l.root.entries, ¬Within addr limit e.2
  | some e => Nearest l addr limit e

variable {m : Memory} {l : VmaList} {addr limit : ℕ} {e d : ℕ × Region} {v : Region}
  {es : List (ℕ × Region)}

/-- The 64-bit comparison fails for a stack that starts below the limit. -/
theorem grows_iff (hlimit : limit < 2 ^ 64) (hv : v.start < 2 ^ 64) :
    grows addr limit v ↔ Within addr limit v ∧ limit ≤ v.start := by
  rw [grows, Within, decide_eq_true_iff]
  omega

theorem Tree.findGrowdown_eq (t : Tree) :
    t.findGrowdown addr limit = t.entries.find? fun e => grows addr limit e.2 := by
  induction t with
  | nil => rfl
  | node p v _ _ l r ihl ihr =>
    rw [findGrowdown, entries, find?_append, find?_cons, ihl, ihr]
    cases l.entries.find? fun e => grows addr limit e.2 with
    | some e => rfl
    | none => cases grows addr limit v <;> rfl

/-- Of two entries with a property the first starts lower. -/
theorem start_le_of_find? (ha : Apart es) {P : ℕ × Region → Bool} (he : es.find? P = some e)
    (hd : d ∈ es) (hP : P d) : e.2.start ≤ d.2.start := by
  obtain ⟨-, L, R, rfl, hL⟩ := find?_eq_some_iff_append.mp he
  rcases mem_append.mp hd with hd | hd
  · exact absurd hP (by simpa using hL d hd)
  rcases mem_cons.mp hd with rfl | hd
  · exact le_rfl
  · have hpos := ha.2 e (mem_append_right _ mem_cons_self)
    have hnext := (pairwise_cons.mp (pairwise_append.mp ha.1).2.1).1 d hd
    exact hpos.le.trans hnext

/-- The nearest stack is the first one of the nodes in order. -/
theorem nearest_iff (hi : Inv l) :
    Nearest l addr limit e ↔ l.root.entries.find? (fun e => Within addr limit e.2) = some e := by
  have hfirst : ∀ {d}, l.root.entries.find? (fun e => Within addr limit e.2) = some d →
      Nearest l addr limit d := fun hd =>
    ⟨mem_of_find?_eq_some hd, by simpa using find?_some hd,
      fun c hc hw => start_le_of_find? hi.apart hd hc (decide_eq_true hw)⟩
  refine ⟨fun he => ?_, hfirst⟩
  obtain ⟨he, hw, hmin⟩ := he
  cases hf : l.root.entries.find? fun e => Within addr limit e.2 with
  | none => exact absurd hw (by simpa using find?_eq_none.mp hf e he)
  | some d =>
    obtain ⟨hd, hwd, hmind⟩ := hfirst hf
    have hstart := (hmin d hd hwd).antisymm (hmind e he hw)
    -- two entries with the same start are one
    rw [← find?_of_has hi.apart hd ⟨le_rfl, hi.apart.2 d hd⟩, ← hstart]
    exact find?_of_has hi.apart he ⟨le_rfl, hi.apart.2 e he⟩

theorem picks_iff (hi : Inv l) {o : Option (ℕ × Region)} : Picks l addr limit o ↔
    o = l.root.entries.find? fun e => Within addr limit e.2 := by
  cases o with
  | none => rw [eq_comm, find?_eq_none]; simp [Picks]
  | some e => exact (nearest_iff hi).trans eq_comm

/-- A search for less finds the same if and only if what the other one finds is that, too. -/
theorem find?_eq_find?_iff {α : Type*} {P Q : α → Bool} {xs : List α} (h : ∀ x ∈ xs, P x → Q x) :
    xs.find? P = xs.find? Q ↔ ∀ x, xs.find? Q = some x → P x := by
  refine ⟨fun heq x hx => find?_some (heq.trans hx), fun hP => ?_⟩
  cases hf : xs.find? Q with
  | none => exact find?_eq_none.mpr fun x hx hp => find?_eq_none.mp hf x hx (h x hx hp)
  | some x =>
    obtain ⟨-, L, R, rfl, hL⟩ := find?_eq_some_iff_append.mp hf
    refine find?_eq_some_iff_append.mpr ⟨hP x hf, L, R, rfl, fun y hy => ?_⟩
    have hy' := h y (mem_append_left _ hy)
    grind

/-- A search ends at `x` or with nothing if and only if what it looks for stands behind `x`. -/
theorem find?_eq_iff_take {α : Type*} {P : α → Bool} (xs : List α) {x : α} (hx : P x) :
    (∀ y ∈ xs.find? P, y = x) ↔ ∀ i y, xs[i]? = some y → P y → y = x ∨ x ∈ xs.take i := by
  induction xs with
  | nil => simp
  | cons a xs ih =>
    rw [find?_cons]
    constructor
    · rintro h (_ | i) y hy hP
      · cases hy
        exact .inl (h a (by simp [hP]))
      · rw [take_succ_cons, mem_cons]
        cases ha : P a with
        | true => exact .inr (.inl (h a (by simp [ha])).symm)
        | false => exact (ih.mp (by simpa [ha] using h) i y hy hP).imp_right .inr
    · intro h
      cases ha : P a with
      | true => simpa [ha] using h 0 a rfl ha
      | false =>
        refine ih.mpr fun i y hy hP => (h (i + 1) y hy hP).imp_right fun hmem => ?_
        rw [take_succ_cons, mem_cons] at hmem
        exact hmem.resolve_left fun heq => by simp [← heq, hx] at ha

theorem cachedStack_eq_iff (hi : Inv l) (m : Memory) (he : Nearest l addr limit e)
    (hlow : limit ≤ e.2.start) (hlimit : limit < 2 ^ 64)
    (hstart : ∀ e ∈ l.root.entries, e.2.start < 2 ^ 64) :
    (∀ p ∈ cachedStack m l addr limit, p = e.1) ↔ FirstCached l addr limit e := by
  -- no stack within the limit starts below the nearest one
  have hgrows : ∀ d ∈ l.root.entries,
      (grows addr limit (m.load l.root d.1) ↔ Within addr limit d.2) := by
    intro d hd
    rw [Memory.load_eq hi.nodup hd, grows_iff hlimit (hstart d hd)]
    exact ⟨And.left, fun hw => ⟨hw, hlow.trans (he.2.2 d hd hw)⟩⟩
  have hsearch := find?_eq_iff_take (P := fun p => grows addr limit (m.load l.root p))
    l.cache.nodes ((hgrows e he.1).mpr he.2.1)
  rw [cachedStack, hsearch]
  constructor
  · intro h d hd hw i _ hget
    exact h i d.1 hget ((hgrows d hd).mpr hw)
  · intro h i p hget hg
    obtain ⟨d, hd, rfl⟩ := mem_map.mp (hi.cached p (mem_of_getElem? hget))
    exact h d hd ((hgrows d hd).mp hg) i (List.getElem?_eq_some_iff.mp hget).1 hget

theorem picks_iff_cachedStack (hi : Inv l) (m : Memory) (addr : ℕ) (hlimit : limit < 2 ^ 64)
    (hstart : ∀ e ∈ l.root.entries, e.2.start < 2 ^ 64) :
    Picks l addr limit (vmaFindGrowdown m l addr limit) ↔ ∀ e, Nearest l addr limit e →
      limit ≤ e.2.start ∧ ∀ p ∈ cachedStack m l addr limit, p = e.1 := by
  have hgrows : ∀ e ∈ l.root.entries,
      (grows addr limit e.2 ↔ Within addr limit e.2 ∧ limit ≤ e.2.start) :=
    fun e he => grows_iff hlimit (hstart e he)
  rw [picks_iff hi, vmaFindGrowdown]
  simp only [nearest_iff hi]
  cases hc : cachedStack m l addr limit with
  | some p =>
    obtain ⟨d, hd, rfl⟩ := mem_map.mp (hi.cached p (mem_of_find?_eq_some hc))
    have hload : m.load l.root d.1 = d.2 := Memory.load_eq hi.nodup hd
    have hg : grows addr limit (m.load l.root d.1) := by simpa using find?_some (hc :)
    obtain ⟨hw, hl⟩ := (hgrows d hd).mp (hload ▸ hg)
    cases hf : l.root.entries.find? fun e => Within addr limit e.2 with
    | none => exact absurd hw (by simpa using find?_eq_none.mp hf d hd)
    | some e =>
      have he : m.load l.root e.1 = e.2 := Memory.load_eq hi.nodup (mem_of_find?_eq_some hf)
      simp only [hload, Option.some.injEq, Option.mem_def, forall_eq']
      constructor
      · rintro rfl
        exact ⟨hl, rfl⟩
      · rintro ⟨-, hp⟩
        exact Prod.ext hp (by rw [← hload, hp, he])
  | none =>
    dsimp only
    rw [findGrowdown_eq, find?_eq_find?_iff fun e he hg => decide_eq_true ((hgrows e he).mp hg).1]
    refine forall₂_congr fun e hf => ?_
    have hw : Within addr limit e.2 := by simpa using find?_some hf
    rw [hgrows e (mem_of_find?_eq_some hf)]
    simp [hw]

/-- **The search picks the nearest stack if and only if** that stack does not start below the
limit, and no other stack within the limit stands before it in the cache. -/
theorem find_growdown_nearest_iff (hi : Inv l) (m : Memory) (addr : ℕ) (hlimit : limit < 2 ^ 64)
    (hstart : ∀ e ∈ l.root.entries, e.2.start < 2 ^ 64) :
    Picks l addr limit (vmaFindGrowdown m l addr limit) ↔ ∀ e, Nearest l addr limit e →
      limit ≤ e.2.start ∧ FirstCached l addr limit e := by
  rw [picks_iff_cachedStack hi m addr hlimit hstart]
  exact forall₂_congr fun e he => and_congr_right fun hlow =>
    cachedStack_eq_iff hi m he hlow hlimit hstart

/-- The near stack is looked at first. -/
theorem find_growdown_near :
    Picks twoStacks 0x2000 0x3000 (vmaFindGrowdown .endless twoStacks 0x2000 0x3000) := by
  have hnear : ∀ e ∈ twoStacks.root.entries.find? fun e => Within 0x2000 0x3000 e.2,
      0x3000 ≤ e.2.start ∧ FirstCached twoStacks 0x2000 0x3000 e := by
    unfold FirstCached
    decide +kernel
  exact (find_growdown_nearest_iff inv_twoStacks .endless 0x2000 (by decide)
    (by decide +kernel)).mpr fun e he => hnear e ((nearest_iff inv_twoStacks).mp he)

def farFirst : VmaList := { twoStacks with cache := twoStacks.cache.push 1 }

theorem inv_farFirst : Inv farFirst := inv_twoStacks.push (by decide +kernel)

/-- **The far stack is returned when it was used last, and no stack when the limit is above its
start.** -/
theorem find_growdown_misses :
    ¬Picks farFirst 0x2000 0x3000 (vmaFindGrowdown .endless farFirst 0x2000 0x3000) ∧
      ¬Picks twoStacks 0x2000 0x6000 (vmaFindGrowdown .endless twoStacks 0x2000 0x6000) := by
  rw [picks_iff inv_farFirst, picks_iff inv_twoStacks]
  decide +kernel

end AvoryOS.Vma
