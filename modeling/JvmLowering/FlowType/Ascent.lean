import JvmLowering.FlowType.Basic

/-!
# Joins go up finitely often

A flow type that changes when another one is joined to it moves up, and it can do so only finitely
often. How often has no bound below `null`, since arrays have any number of dimensions, but every
other flow type has a height: the number of moves that are left. `tier` counts the moves over `null`
and `height` those after them.

* `join_ascends`: a join that changes a flow type lowers its tier, or keeps the tier and lowers its
  height.
-/

namespace JvmLowering

namespace Hierarchy

/-- How many superclasses are left above a class before `java/lang/Object` is reached. -/
def classHeight (g : Hierarchy) (c : ClassId) : Nat :=
  if c = object then 0 else (g.ancestors c).length

def refHeight (g : Hierarchy) : RefType ClassId → Nat
  | .object c => g.classHeight c
  | .array extra (.base _) => extra + 1
  | .array extra (.cls c) => extra + 1 + g.classHeight c

@[simp] theorem classHeight_object (g : Hierarchy) :
    g.classHeight object = 0 := by simp [classHeight]

theorem classHeight_pos {g : Hierarchy} {c : ClassId} (h : c ≠ object) : 0 < g.classHeight c := by
  simp only [classHeight, h, if_false]
  exact List.length_pos_of_mem (g.self_mem_ancestors c)

@[simp] theorem leastUpperBound_object (g : Hierarchy) (b : ClassId) :
    g.leastUpperBound object b = object := by
  by_cases h : g.leastUpperBound object b = object
  · exact h
  · simpa using leastUpperBound_mem h

theorem classHeight_leastUpperBound_lt {g : Hierarchy} {a b : ClassId}
    (h : g.leastUpperBound a b ≠ a) :
    g.classHeight (g.leastUpperBound a b) < g.classHeight a := by
  have ha : a ≠ object := by
    rintro rfl
    exact h (g.leastUpperBound_object b)
  by_cases hl : g.leastUpperBound a b = object
  · rw [hl]
    simpa using classHeight_pos ha
  · simp only [classHeight, ha, hl, if_false]
    exact length_ancestors_lt (leastUpperBound_mem hl) h

theorem refHeight_joinShapes_base {g : Hierarchy} (extra : Nat) (b : BaseType) (s : Nat × ClassId) :
    g.refHeight (g.joinShapes (arrayShape extra (.base b)) s) <
      g.refHeight (.array extra (.base b)) := by
  obtain ⟨n, c⟩ := s
  rcases extra with _ | m
  · simp [arrayShape, joinShapes, refHeight]
  · rcases n with _ | n
    · simp [arrayShape, joinShapes, refHeight]
    · simp only [arrayShape, joinShapes]
      split <;> simp only [refHeight, leastUpperBound_object, classHeight_object] <;> omega

theorem refHeight_joinShapes_cls {g : Hierarchy} {extra : Nat} {a : ClassId} {s : Nat × ClassId}
    (h : g.joinShapes (arrayShape extra (.cls a)) s ≠ .array extra (.cls a)) :
    g.refHeight (g.joinShapes (arrayShape extra (.cls a)) s) <
      g.refHeight (.array extra (.cls a)) := by
  obtain ⟨n, b⟩ := s
  rcases n with _ | n
  · simp only [arrayShape, joinShapes, refHeight, classHeight_object]
    omega
  · simp only [arrayShape, joinShapes] at h ⊢
    split at h
    · rename_i hmn
      simp only [hmn, if_true, refHeight]
      have := classHeight_leastUpperBound_lt (g := g) (a := a) (b := b) (by simpa [hmn] using h)
      omega
    · rename_i hmn
      simp only [hmn, if_false, refHeight, classHeight_object]
      rcases Nat.lt_or_ge n extra with hlt | hge
      · omega
      · rw [Nat.min_eq_left hge] at h ⊢
        have := classHeight_pos (g := g) (c := a) fun ha => h (by rw [ha])
        omega

theorem refHeight_joinRef_lt {g : Hierarchy} {r s : RefType ClassId} (h : g.joinRef r s ≠ r) :
    g.refHeight (g.joinRef r s) < g.refHeight r := by
  rcases r with a | ⟨m, a⟩
  · rcases s with b | ⟨n, b⟩
    · exact classHeight_leastUpperBound_lt (by simpa [joinRef] using h)
    · simp only [joinRef, refHeight, classHeight_object]
      exact classHeight_pos fun ha => h (by simp [joinRef, ha])
  · rcases s with b | ⟨n, b⟩
    · rcases a with _ | _ <;> simp only [joinRef, refHeight, classHeight_object] <;> omega
    · simp only [joinRef] at h ⊢
      split
      · simp_all
      · rename_i hne
        rw [if_neg hne] at h
        rcases a with a | a
        · exact refHeight_joinShapes_base m a _
        · exact refHeight_joinShapes_cls h

end Hierarchy

namespace FlowType

/-- How many moves over `null` are left. -/
def tier : FlowType → Nat
  | bottom => 2
  | null => 1
  | _ => 0

/-- How many moves are left to a flow type that is beyond `null`. -/
def height (g : Hierarchy) : FlowType → Nat
  | bottom | null | top => 0
  | prim _ => 1
  | ref r nullable => 1 + g.refHeight r + if nullable then 0 else 1

theorem height_ref_join {g : Hierarchy} {r s : RefType ClassId} {m n : Bool}
    (h : ref (g.joinRef r s) (m || n) ≠ ref r m) :
    height g (ref (g.joinRef r s) (m || n)) < height g (ref r m) := by
  by_cases hr : g.joinRef r s = r
  · rw [hr] at h ⊢
    rcases m with _ | _ <;> rcases n with _ | _ <;> simp_all [height]
  · have := Hierarchy.refHeight_joinRef_lt hr
    rcases m with _ | _ <;> rcases n with _ | _ <;> simp [height] <;> omega

theorem join_ascends {g : Hierarchy} {s t : FlowType} (h : join g s t ≠ s) :
    (join g s t).tier < s.tier ∨ (join g s t).tier = s.tier ∧
      (join g s t).height g < s.height g := by
  rcases s with _ | _ | _ | a | ⟨r, m⟩
  -- `bottom`, `top` and `null` change their tier or nothing at all
  · rcases t with _ | _ | _ | b | ⟨s, n⟩ <;> simp_all [join, tier]
  · rcases t with _ | _ | _ | b | ⟨s, n⟩ <;> exact absurd rfl h
  · rcases t with _ | _ | _ | b | ⟨s, n⟩ <;> simp_all [join, tier]
  -- a number can only become `top`
  · refine .inr ?_
    rcases t with _ | _ | _ | b | ⟨s, n⟩
    · exact absurd rfl h
    · exact ⟨rfl, Nat.one_pos⟩
    · exact ⟨rfl, Nat.one_pos⟩
    · simp only [join] at h ⊢
      split at h
      · exact absurd rfl h
      · rename_i hab
        rw [if_neg hab]
        exact ⟨rfl, Nat.one_pos⟩
    · exact ⟨rfl, Nat.one_pos⟩
  -- a reference stays one, or it becomes `top`
  · refine .inr ?_
    rcases t with _ | _ | _ | b | ⟨s, n⟩
    · exact absurd rfl h
    · refine ⟨rfl, ?_⟩
      simp only [join, height]
      omega
    · refine ⟨rfl, ?_⟩
      rcases m with _ | _ <;> simp_all [join, height]
    · refine ⟨rfl, ?_⟩
      simp only [join, height]
      omega
    · exact ⟨rfl, height_ref_join h⟩

end FlowType

end JvmLowering
