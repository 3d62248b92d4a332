import JvmLowering.FlowType.Ascent

/-!
# The tree of classes

Every class lies below its superclasses and below `java/lang/Object`, also where its chain of
superclasses ends elsewhere. Above a class the classes form a chain, so two classes have a least
class above both.

* `ClassLE` is a partial order;
* `leastUpperBound_le_iff`: the least upper bound of two classes is their join for it.
-/

namespace JvmLowering.Hierarchy

variable {g : Hierarchy} {a b c d e : ClassId}

/-! ### Chains of superclasses -/

/-- Classes by their superclasses: a class without one, or a class for whose superclass the
statement holds. -/
theorem ancestry_induction {motive : ClassId → Prop} (g : Hierarchy)
    (root : ∀ c, g.superclass? c = none → motive c)
    (below : ∀ c s, g.superclass? c = some s → motive s → motive c) (c : ClassId) : motive c := by
  induction hn : c.num using Nat.strongRecOn generalizing c with
  | ind n ih =>
    subst hn
    cases hs : g.superclass? c with
    | none => exact root c hs
    | some s => exact below c s hs (ih s.num (superclass?_lt hs) s rfl)

theorem mem_ancestors_of_some {s : ClassId} (hs : g.superclass? c = some s) :
    d ∈ g.ancestors c ↔ d = c ∨ d ∈ g.ancestors s := by
  rw [ancestors_of_some hs, List.mem_cons]

theorem mem_ancestors_of_none (hs : g.superclass? c = none) : d ∈ g.ancestors c ↔ d = c := by
  rw [ancestors_of_none hs, List.mem_singleton]

theorem num_le_of_mem_ancestors (h : d ∈ g.ancestors c) : d.num ≤ c.num := by
  induction c using ancestry_induction g with
  | root c hs =>
    rw [mem_ancestors_of_none hs] at h
    exact Nat.le_of_eq (by rw [h])
  | below c s hs ih =>
    rcases (mem_ancestors_of_some hs).1 h with rfl | h
    · exact Nat.le_refl _
    · exact Nat.le_trans (ih h) (Nat.le_of_lt (superclass?_lt hs))

theorem mem_ancestors_trans (hd : d ∈ g.ancestors c) (he : e ∈ g.ancestors d) :
    e ∈ g.ancestors c := by
  induction c using ancestry_induction g with
  | root c hs =>
    rw [mem_ancestors_of_none hs] at hd
    rwa [hd] at he
  | below c s hs ih =>
    rcases (mem_ancestors_of_some hs).1 hd with rfl | hd
    · exact he
    · exact (mem_ancestors_of_some hs).2 (Or.inr (ih hd))

/-- What is found first along a chain lies below everything else that could be found. -/
theorem mem_ancestors_of_find? {p : ClassId → Bool} (hd : (g.ancestors b).find? p = some d)
    (hc : c ∈ g.ancestors b) (hp : p c = true) : c ∈ g.ancestors d := by
  induction b using ancestry_induction g with
  | root b hs =>
    rw [mem_ancestors_of_none hs] at hc
    subst hc
    rw [ancestors_of_none hs, List.find?_singleton, if_pos hp, Option.some.injEq] at hd
    subst hd
    exact g.self_mem_ancestors c
  | below b s hs ih =>
    rw [ancestors_of_some hs, List.find?_cons] at hd
    by_cases hb : p b = true
    · rw [hb, Option.some.injEq] at hd
      rwa [← hd]
    · rw [Bool.not_eq_true] at hb
      rw [hb] at hd
      rcases (mem_ancestors_of_some hs).1 hc with rfl | hc
      · rw [hp] at hb
        exact absurd hb (by simp)
      · exact ih hd hc

/-! ### The order of classes -/

/-- `d` is `c`, a superclass of `c`, or `java/lang/Object`. -/
def ClassLE (g : Hierarchy) (c d : ClassId) : Prop := d ∈ g.ancestors c ∨ d = object

theorem ClassLE.refl (g : Hierarchy) (c : ClassId) : g.ClassLE c c :=
  Or.inl (g.self_mem_ancestors c)

theorem classLE_object (g : Hierarchy) (c : ClassId) : g.ClassLE c object := Or.inr rfl

theorem object_classLE_iff : g.ClassLE object d ↔ d = object := by
  simp [ClassLE]

theorem ClassLE.trans (h : g.ClassLE c d) (h' : g.ClassLE d e) : g.ClassLE c e := by
  rcases h with h | rfl
  · rcases h' with h' | rfl
    · exact Or.inl (mem_ancestors_trans h h')
    · exact g.classLE_object c
  · rw [object_classLE_iff.1 h']
    exact g.classLE_object c

theorem ClassLE.antisymm (h : g.ClassLE c d) (h' : g.ClassLE d c) : c = d := by
  rcases h with h | rfl
  · rcases h' with h' | rfl
    · have h1 := num_le_of_mem_ancestors h
      have h2 := num_le_of_mem_ancestors h'
      obtain ⟨m⟩ := c
      obtain ⟨n⟩ := d
      simp only at h1 h2
      rw [Nat.le_antisymm h1 h2]
    · rw [ancestors_object, List.mem_singleton] at h
      exact h.symm
  · exact object_classLE_iff.1 h'

/-! ### Least upper bounds -/

theorem classLE_leastUpperBound_left (g : Hierarchy) (a b : ClassId) :
    g.ClassLE a (g.leastUpperBound a b) := by
  by_cases h : g.leastUpperBound a b = object
  · exact Or.inr h
  · exact Or.inl (leastUpperBound_mem h)

theorem classLE_leastUpperBound_right (g : Hierarchy) (a b : ClassId) :
    g.ClassLE b (g.leastUpperBound a b) := by
  unfold leastUpperBound
  split
  · rename_i hab
    rw [hab]
    exact ClassLE.refl g b
  · cases hf : (g.ancestors b).find? (· ∈ g.ancestors a) with
    | none => exact g.classLE_object b
    | some d => exact Or.inl (List.mem_of_find?_eq_some hf)

theorem leastUpperBound_le (ha : g.ClassLE a c) (hb : g.ClassLE b c) :
    g.ClassLE (g.leastUpperBound a b) c := by
  rcases ha with ha | rfl
  · rcases hb with hb | rfl
    · unfold leastUpperBound
      split
      · exact Or.inl ha
      · cases hf : (g.ancestors b).find? (· ∈ g.ancestors a) with
        | none => exact absurd ha (by simpa using List.find?_eq_none.1 hf c hb)
        | some d => exact Or.inl (mem_ancestors_of_find? hf hb (by simpa using ha))
    · exact g.classLE_object _
  · exact g.classLE_object _

theorem leastUpperBound_le_iff : g.ClassLE (g.leastUpperBound a b) c ↔
    g.ClassLE a c ∧ g.ClassLE b c :=
  ⟨fun h => ⟨(g.classLE_leastUpperBound_left a b).trans h,
    (g.classLE_leastUpperBound_right a b).trans h⟩,
    fun h => leastUpperBound_le h.1 h.2⟩

end JvmLowering.Hierarchy
