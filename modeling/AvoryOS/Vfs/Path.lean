import AvoryOS.Vfs.Dentry

/-!
# Components of a path

`componentMatch` is the search of the invalidation log for a name in a cached path: an
occurrence counts if it begins at the start of the path or after a slash, and ends at its
end or before a slash.
-/

namespace AvoryOS.Vfs

def slash : UInt8 := 47

/-- The search from a position; `prev` is the byte before it. -/
def matchFrom (name : Name) : Option UInt8 → Name → Bool
  | prev, [] => name.isPrefixOf [] && (prev == none || prev == some slash)
  | prev, c :: rest =>
    (name.isPrefixOf (c :: rest) && (prev == none || prev == some slash) &&
      (((c :: rest).drop name.length).head? == none ||
        ((c :: rest).drop name.length).head? == some slash)) ||
      matchFrom name (some c) rest

def componentMatch (path name : Name) : Bool := matchFrom name none path

/-- The start or the end of a path, or a slash. -/
def Boundary (c : Option UInt8) : Prop := c = none ∨ c = some slash

/-- The name stands in the path between boundaries. -/
def IsComponent (name path : Name) : Prop :=
  ∃ a b, path = a ++ name ++ b ∧ Boundary a.getLast? ∧ Boundary b.head?

theorem getLast_cons_or (c : UInt8) (a : Name) (prev : Option UInt8) :
    (c :: a).getLast?.or prev = a.getLast?.or (some c) := by
  rw [List.getLast?_cons]
  cases a.getLast? with
  | none => rfl
  | some d => rfl

theorem matchFrom_iff {name : Name} (hn : name ≠ []) {prev : Option UInt8} {path : Name} :
    matchFrom name prev path = true ↔
      ∃ a b, path = a ++ name ++ b ∧ Boundary (a.getLast?.or prev) ∧ Boundary b.head? := by
  induction path generalizing prev with
  | nil =>
    refine ⟨fun h => ?_, fun ⟨a, b, h, _⟩ => ?_⟩
    · simp [matchFrom, hn] at h
    · simp [hn] at h
  | cons c rest ih =>
    rw [matchFrom, Bool.or_eq_true, ih]
    constructor
    · rintro (h | ⟨a, b, rfl, h1, h2⟩)
      · simp only [Bool.and_eq_true, Bool.or_eq_true, beq_iff_eq, List.isPrefixOf_iff_prefix] at h
        obtain ⟨⟨⟨b, hb⟩, h1⟩, h2⟩ := h
        rw [← hb, List.drop_left] at h2
        exact ⟨[], b, by rw [← hb]; rfl, h1, h2⟩
      · exact ⟨c :: a, b, rfl, by rwa [getLast_cons_or], h2⟩
    rintro ⟨a, b, h, h1, h2⟩
    cases a with
    | nil =>
      left
      rw [List.nil_append] at h
      rw [h, List.drop_left]
      simp only [Bool.and_eq_true, Bool.or_eq_true, beq_iff_eq, List.isPrefixOf_iff_prefix]
      exact ⟨⟨List.prefix_append _ _, h1⟩, h2⟩
    | cons d a =>
      obtain ⟨rfl, rfl⟩ := List.cons.inj h
      exact .inr ⟨a, b, rfl, by rwa [getLast_cons_or] at h1, h2⟩

theorem componentMatch_iff {path name : Name} (hn : name ≠ []) :
    componentMatch path name = true ↔ IsComponent name path := by
  rw [componentMatch, matchFrom_iff hn, IsComponent]
  simp

end AvoryOS.Vfs
