import JvmLowering.Hierarchy.Basic

/-!
# Superclasses

The chain of superclasses of a class, and the least class above two classes. A superclass has a
smaller index than its subclasses, which is why the chain ends; a hierarchy in which it has not is
cut there.
-/

namespace JvmLowering.Hierarchy

/-- The superclass of a class, if it was there before the class. -/
def superclass? (g : Hierarchy) (c : ClassId) : Option ClassId :=
  (g.cls c).superclass.filter (·.num < c.num)

theorem superclass?_lt {g : Hierarchy} {c s : ClassId} (h : g.superclass? c = some s) :
    s.num < c.num := by
  simp only [superclass?, Option.filter_eq_some_iff, decide_eq_true_eq] at h
  exact h.2

/-- A class and its superclasses, upwards. -/
def ancestors (g : Hierarchy) (c : ClassId) : List ClassId :=
  match h : g.superclass? c with
  | none => [c]
  | some s =>
    have := superclass?_lt h
    c :: g.ancestors s
termination_by c.num

/-- The first superclass of `b` that is also one of `a`. -/
def leastUpperBound (g : Hierarchy) (a b : ClassId) : ClassId :=
  if a = b then a else ((g.ancestors b).find? (· ∈ g.ancestors a)).getD object

theorem ancestors_of_none {g : Hierarchy} {c : ClassId} (h : g.superclass? c = none) :
    g.ancestors c = [c] := by
  rw [ancestors]
  split
  · rfl
  · simp_all

theorem ancestors_of_some {g : Hierarchy} {c s : ClassId} (h : g.superclass? c = some s) :
    g.ancestors c = c :: g.ancestors s := by
  rw [ancestors]
  split <;> simp_all

theorem self_mem_ancestors (g : Hierarchy) (c : ClassId) : c ∈ g.ancestors c := by
  cases h : g.superclass? c with
  | none => simp [ancestors_of_none h]
  | some s => simp [ancestors_of_some h]

theorem superclass?_object (g : Hierarchy) : g.superclass? object = none := by
  cases h : g.superclass? object with
  | none => rfl
  | some s => exact absurd (superclass?_lt h) (by simp [object, Index.first])

@[simp] theorem ancestors_object (g : Hierarchy) : g.ancestors object = [object] :=
  ancestors_of_none g.superclass?_object

/-- The chain of a superclass is shorter. -/
theorem length_ancestors_lt {g : Hierarchy} {c d : ClassId} (h : d ∈ g.ancestors c) (hne : d ≠ c) :
    (g.ancestors d).length < (g.ancestors c).length := by
  induction hn : c.num using Nat.strongRecOn generalizing c with
  | ind n ih =>
    subst hn
    cases hs : g.superclass? c with
    | none => simp [ancestors_of_none hs, hne] at h
    | some s =>
      rw [ancestors_of_some hs] at h ⊢
      rcases List.mem_cons.mp h with rfl | h
      · exact absurd rfl hne
      · by_cases hds : d = s
        · subst hds
          simp
        · have := ih s.num (superclass?_lt hs) h hds rfl
          simp only [List.length_cons]
          omega

theorem leastUpperBound_mem {g : Hierarchy} {a b : ClassId} (h : g.leastUpperBound a b ≠ object) :
    g.leastUpperBound a b ∈ g.ancestors a := by
  unfold leastUpperBound at h ⊢
  split
  · exact g.self_mem_ancestors a
  · rename_i hab
    simp only [hab, if_false] at h
    cases hf : (g.ancestors b).find? (· ∈ g.ancestors a) with
    | none => simp [hf] at h
    | some c =>
      have := List.find?_some hf
      simpa using this

end JvmLowering.Hierarchy
