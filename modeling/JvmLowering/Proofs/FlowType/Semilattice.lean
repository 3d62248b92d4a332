import JvmLowering.Proofs.Hierarchy.Ancestry
import Mathlib.Order.Lattice

/-!
# Flow types form a semilattice

Reference types form a tree: an array type lies below the arrays of superclasses of its innermost
class, below arrays of objects with fewer dimensions, and below `java/lang/Object`; an array of
primitive values counts as an object there. Joins of reference types are least upper bounds in this
tree, and joins of flow types are least upper bounds of its extension by nullability, `null`,
primitive types, bottom and top.

* `RefLE`, `FlowType.Covers`: the two orders;
* `joinRef_le_iff`, `FlowType.join_covers_iff`: the joins are least upper bounds;
* `FlowType.join_semilattice`: all laws of the join.
-/

namespace JvmLowering

/-! ### The tree of reference types -/

namespace Hierarchy

variable {g : Hierarchy} {r s t : RefType ClassId}

/-- The second reference type lies on the way from the first one to `java/lang/Object`. -/
def RefLE (g : Hierarchy) : RefType ClassId → RefType ClassId → Prop
  | .object a, .object b => g.ClassLE a b
  | .object _, .array _ _ => False
  | .array _ _, .object b => b = object
  | .array m (.base a), .array n (.base b) => m = n ∧ a = b
  | .array m (.base _), .array n (.cls b) => n < m ∧ b = object
  | .array m (.cls a), .array n (.cls b) => m = n ∧ g.ClassLE a b ∨ n < m ∧ b = object
  | .array _ (.cls _), .array _ (.base _) => False

theorem RefLE.refl (g : Hierarchy) (r : RefType ClassId) : g.RefLE r r := by
  rcases r with a | ⟨m, a | a⟩
  · exact ClassLE.refl g a
  · exact ⟨rfl, rfl⟩
  · exact Or.inl ⟨rfl, ClassLE.refl g a⟩

theorem refLE_object (g : Hierarchy) (r : RefType ClassId) : g.RefLE r (.object object) := by
  rcases r with a | ⟨m, a⟩
  · exact g.classLE_object a
  · rfl

theorem RefLE.trans (h : g.RefLE r s) (h' : g.RefLE s t) : g.RefLE r t := by
  rcases t with c | ⟨k, c | c⟩
  · -- above a class there are only classes, and above an array there is only `java/lang/Object`
    rcases s with b | ⟨n, b⟩
    · rcases r with a | ⟨m, a⟩
      · exact ClassLE.trans h h'
      · have hb : b = object := h
        subst hb
        exact object_classLE_iff.1 h'
    · have hc : c = object := h'
      subst hc
      exact g.refLE_object r
  · rcases s with b | ⟨n, b | b⟩
    · exact absurd h' id
    · obtain ⟨rfl, rfl⟩ := h'
      exact h
    · exact absurd h' id
  · rcases s with b | ⟨n, b | b⟩
    · exact absurd h' id
    · obtain ⟨hk, rfl⟩ := h'
      rcases r with a | ⟨m, a | a⟩
      · exact absurd h id
      · obtain ⟨rfl, rfl⟩ := h
        exact ⟨hk, rfl⟩
      · exact absurd h id
    · rcases r with a | ⟨m, a | a⟩
      · exact absurd h id
      · obtain ⟨hn, rfl⟩ := h
        rcases h' with ⟨rfl, hc⟩ | ⟨hk, rfl⟩
        · exact ⟨hn, object_classLE_iff.1 hc⟩
        · exact ⟨Nat.lt_trans hk hn, rfl⟩
      · rcases h with ⟨rfl, hb⟩ | ⟨hn, rfl⟩
        · rcases h' with ⟨rfl, hc⟩ | hk
          · exact Or.inl ⟨rfl, hb.trans hc⟩
          · exact Or.inr hk
        · rcases h' with ⟨rfl, hc⟩ | ⟨hk, rfl⟩
          · exact Or.inr ⟨hn, object_classLE_iff.1 hc⟩
          · exact Or.inr ⟨Nat.lt_trans hk hn, rfl⟩

theorem RefLE.antisymm (h : g.RefLE r s) (h' : g.RefLE s r) : r = s := by
  rcases r with a | ⟨m, a | a⟩
  · rcases s with b | ⟨n, b⟩
    · rw [ClassLE.antisymm h h']
    · exact absurd h id
  · rcases s with b | ⟨n, b | b⟩
    · exact absurd h' id
    · obtain ⟨rfl, rfl⟩ := h
      rfl
    · exact absurd h' id
  · rcases s with b | ⟨n, b | b⟩
    · exact absurd h' id
    · exact absurd h id
    · rcases h with ⟨rfl, hab⟩ | ⟨hn, rfl⟩
      · rcases h' with ⟨-, hba⟩ | ⟨hlt, -⟩
        · rw [ClassLE.antisymm hab hba]
        · exact absurd hlt (Nat.lt_irrefl _)
      · rcases h' with ⟨rfl, -⟩ | ⟨hm, -⟩
        · exact absurd hn (Nat.lt_irrefl _)
        · exact absurd hn (Nat.lt_asymm hm)

/-! ### Joins of reference types -/

/-- The place of an array with the given shape among the arrays of classes. -/
theorem refLE_array_iff {m n : Nat} {a : Element ClassId} {b : ClassId} :
    g.RefLE (.array m a) (.array n (.cls b)) ↔
      (arrayShape m a).1 = n + 1 ∧ g.ClassLE (arrayShape m a).2 b ∨ n + 1 < (arrayShape m a).1 ∧
        b = object := by
  rcases a with a | a
  · simp only [RefLE, arrayShape, object_classLE_iff]
    constructor
    · rintro ⟨hn, rfl⟩
      rcases Nat.lt_or_ge (n + 1) m with h | h
      · exact Or.inr ⟨h, rfl⟩
      · exact Or.inl ⟨by omega, rfl⟩
    · rintro (⟨rfl, rfl⟩ | ⟨h, rfl⟩)
      · exact ⟨Nat.lt_succ_self n, rfl⟩
      · exact ⟨by omega, rfl⟩
  · simp only [RefLE, arrayShape, Nat.add_right_cancel_iff, Nat.add_lt_add_iff_right]

/-- What lies above two shapes is above their join. -/
theorem joinShapes_le_iff {p q : Nat × ClassId} {n : Nat} {c : ClassId} :
    g.RefLE (g.joinShapes p q) (.array n (.cls c)) ↔
      (p.1 = n + 1 ∧ g.ClassLE p.2 c ∨ n + 1 < p.1 ∧ c = object) ∧
        (q.1 = n + 1 ∧ g.ClassLE q.2 c ∨ n + 1 < q.1 ∧ c = object) := by
  -- a type without dimensions is joined to a class, which is below no array
  obtain ⟨_ | k, a⟩ := p
  · simp [joinShapes, RefLE]
  obtain ⟨_ | l, b⟩ := q
  · simp [joinShapes, RefLE]
  -- with as many dimensions the classes are joined, with fewer on one side `Object` is left
  by_cases hkl : k = l
  · subst hkl
    simp only [joinShapes, if_true, RefLE, leastUpperBound_le_iff, Nat.add_right_cancel_iff,
      Nat.add_lt_add_iff_right]
    constructor
    · rintro (⟨h, ha, hb⟩ | h)
      · exact ⟨Or.inl ⟨h, ha⟩, Or.inl ⟨h, hb⟩⟩
      · exact ⟨Or.inr h, Or.inr h⟩
    · rintro ⟨⟨h, ha⟩ | h, ⟨h', hb⟩ | h'⟩
      · exact Or.inl ⟨h, ha, hb⟩
      · exact Or.inr h'
      · exact Or.inr h
      · exact Or.inr h
  · simp only [joinShapes, hkl, if_false, RefLE, object_classLE_iff, Nat.add_right_cancel_iff,
      Nat.add_lt_add_iff_right]
    constructor
    · rintro (⟨rfl, rfl⟩ | ⟨h, rfl⟩)
      · rcases Nat.lt_or_ge k l with hlt | hge
        · rw [Nat.min_eq_left (Nat.le_of_lt hlt)]
          exact ⟨Or.inl ⟨rfl, g.classLE_object a⟩, Or.inr ⟨hlt, rfl⟩⟩
        · rw [Nat.min_eq_right hge]
          exact ⟨Or.inr ⟨by omega, rfl⟩, Or.inl ⟨rfl, g.classLE_object b⟩⟩
      · exact ⟨Or.inr ⟨by omega, rfl⟩, Or.inr ⟨by omega, rfl⟩⟩
    · rintro ⟨⟨hk, -⟩ | ⟨hk, rfl⟩, ⟨hl, -⟩ | ⟨hl, hc⟩⟩
      · exact absurd (hk.trans hl.symm) hkl
      · exact Or.inl ⟨by omega, hc⟩
      · exact Or.inl ⟨by omega, rfl⟩
      · exact Or.inr ⟨by omega, rfl⟩

/-- The join of two shapes lies above no array of primitive values. -/
theorem not_joinShapes_le_base {p q : Nat × ClassId} {n : Nat} {b : BaseType} :
    ¬ g.RefLE (g.joinShapes p q) (.array n (.base b)) := by
  obtain ⟨_ | k, a⟩ := p
  · simp [joinShapes, RefLE]
  obtain ⟨_ | l, c⟩ := q
  · simp [joinShapes, RefLE]
  by_cases hkl : k = l <;> simp [joinShapes, hkl, RefLE]

theorem joinShapes_le_object_iff {p q : Nat × ClassId} {c : ClassId} :
    g.RefLE (g.joinShapes p q) (.object c) ↔ c = object := by
  obtain ⟨_ | k, a⟩ := p
  · simp [joinShapes, RefLE, object_classLE_iff]
  obtain ⟨_ | l, b⟩ := q
  · simp [joinShapes, RefLE, object_classLE_iff]
  by_cases hkl : k = l <;> simp [joinShapes, hkl, RefLE]

/-- The join of two reference types is their least upper bound. -/
theorem joinRef_le_iff : g.RefLE (g.joinRef r s) t ↔ g.RefLE r t ∧ g.RefLE s t := by
  rcases r with a | ⟨m, a⟩
  · rcases s with b | ⟨n, b⟩
    · rcases t with c | ⟨k, c⟩
      · exact leastUpperBound_le_iff
      · simp [joinRef, RefLE]
    · rcases t with c | ⟨k, c⟩
      · simp only [joinRef, RefLE, object_classLE_iff]
        exact ⟨fun h => ⟨h ▸ g.classLE_object a, h⟩, fun h => h.2⟩
      · simp [joinRef, RefLE]
  · rcases s with b | ⟨n, b⟩
    · rcases t with c | ⟨k, c⟩
      · simp only [joinRef, RefLE, object_classLE_iff]
        exact ⟨fun h => ⟨h, h ▸ g.classLE_object b⟩, fun h => h.1⟩
      · simp [joinRef, RefLE]
    · by_cases hab : m = n ∧ a = b
      · obtain ⟨rfl, rfl⟩ := hab
        simp [joinRef]
      · simp only [joinRef, if_neg hab]
        rcases t with c | ⟨k, c | c⟩
        · rw [joinShapes_le_object_iff]
          simp [RefLE]
        · -- only equal arrays lie below an array of primitive values
          refine ⟨fun h => absurd h not_joinShapes_le_base, fun hboth => ?_⟩
          obtain ⟨h, h'⟩ := hboth
          rcases a with a | a
          · rcases b with b | b
            · obtain ⟨rfl, rfl⟩ := h
              obtain ⟨rfl, rfl⟩ := h'
              exact absurd ⟨rfl, rfl⟩ hab
            · exact absurd h' id
          · exact absurd h id
        · rw [joinShapes_le_iff, refLE_array_iff, refLE_array_iff]

end Hierarchy

/-! ### The order of flow types -/

namespace FlowType

variable {g : Hierarchy} {s t u : FlowType}

/-- The second flow type says of a value no more than the first one. -/
def Covers (g : Hierarchy) : FlowType → FlowType → Prop
  | bottom, _ => True
  | _, top => True
  | null, null => True
  | null, ref _ nullable => nullable = true
  | prim a, prim b => a = b
  | ref r m, ref s n => g.RefLE r s ∧ (m = true → n = true)
  | _, _ => False

theorem Covers.refl (g : Hierarchy) (t : FlowType) : Covers g t t := by
  rcases t with _ | _ | _ | b | ⟨r, n⟩
  · trivial
  · trivial
  · trivial
  · rfl
  · exact ⟨Hierarchy.RefLE.refl g r, id⟩

theorem covers_top (g : Hierarchy) (t : FlowType) : Covers g t top := by
  cases t <;> trivial

theorem Covers.trans (h : Covers g s t) (h' : Covers g t u) : Covers g s u := by
  rcases s with _ | _ | _ | a | ⟨r, m⟩
  -- `bottom`, and then `top`, `null`, numbers and references
  · trivial
  · rcases t with _ | _ | _ | b | ⟨q, n⟩ <;> first | exact h' | exact absurd h id
  · rcases t with _ | _ | _ | b | ⟨q, n⟩
    · exact absurd h id
    · rcases u with _ | _ | _ | c | ⟨q', k⟩ <;> first | exact absurd h' id | trivial
    · exact h'
    · exact absurd h id
    · rcases u with _ | _ | _ | c | ⟨q', k⟩
      · exact absurd h' id
      · trivial
      · exact absurd h' id
      · exact absurd h' id
      -- `null` is below references that may be null, and what covers them may be null as well
      · exact h'.2 h
  · rcases t with _ | _ | _ | b | ⟨q, n⟩
    · exact absurd h id
    · rcases u with _ | _ | _ | c | ⟨q', k⟩ <;> first | exact absurd h' id | trivial
    · exact absurd h id
    · have hab : a = b := h
      rwa [hab]
    · exact absurd h id
  · rcases t with _ | _ | _ | b | ⟨q, n⟩
    · exact absurd h id
    · rcases u with _ | _ | _ | c | ⟨q', k⟩ <;> first | exact absurd h' id | trivial
    · exact absurd h id
    · exact absurd h id
    · rcases u with _ | _ | _ | c | ⟨q', k⟩
      · exact absurd h' id
      · trivial
      · exact absurd h' id
      · exact absurd h' id
      · exact ⟨h.1.trans h'.1, fun hm => h'.2 (h.2 hm)⟩

theorem Covers.antisymm (h : Covers g s t) (h' : Covers g t s) : s = t := by
  rcases s with _ | _ | _ | a | ⟨r, m⟩ <;> rcases t with _ | _ | _ | b | ⟨q, n⟩ <;>
    first | rfl | exact absurd h id | exact absurd h' id | skip
  · rw [show a = b from h]
  · obtain ⟨hr, hm⟩ := h
    obtain ⟨hr', hn⟩ := h'
    rw [hr.antisymm hr', show m = n from Bool.eq_iff_iff.2 ⟨hm, hn⟩]

theorem top_covers_iff : Covers g top t ↔ t = top := by
  cases t <;> simp [Covers]

theorem prim_covers_iff {b : BaseType} : Covers g (prim b) t ↔ t = top ∨ t = prim b := by
  cases t <;> simp [Covers, eq_comm]

/-- The join of two flow types is the least one that covers both. -/
theorem join_covers_iff : Covers g (join g s t) u ↔ Covers g s u ∧ Covers g t u := by
  -- below `top` only, whatever is joined with it
  have absorb : ∀ w, Covers g top u ↔ Covers g top u ∧ Covers g w u := by
    intro w
    rw [top_covers_iff]
    refine ⟨?_, And.left⟩
    rintro rfl
    exact ⟨rfl, covers_top g w⟩
  rcases s with _ | _ | _ | a | ⟨r, m⟩
  -- `bottom` adds nothing
  · simp [join, Covers]
  -- `top` absorbs
  · rcases t with _ | _ | _ | b | ⟨r', n⟩ <;> exact absorb _
  -- `null` makes a reference nullable, and is below no number
  · rcases t with _ | _ | _ | b | ⟨r', n⟩
    · simp [join, Covers]
    · rw [and_comm]
      exact absorb null
    · simp [join]
    · simp only [join, top_covers_iff, prim_covers_iff]
      cases u <;> simp [Covers]
    · cases u <;> simp [join, Covers]
      exact ⟨fun h => ⟨h.2, h.1, fun _ => h.2⟩, fun h => ⟨h.2.1, h.1⟩⟩
  -- a number is below itself and `top`
  · rcases t with _ | _ | _ | b | ⟨r', n⟩
    · simp [join, Covers]
    · rw [and_comm]
      exact absorb (prim a)
    · simp only [join, top_covers_iff, prim_covers_iff]
      cases u <;> simp [Covers]
    · simp only [join, prim_covers_iff]
      split
      · rename_i hab
        subst hab
        rw [and_self, prim_covers_iff]
      · rename_i hab
        rw [top_covers_iff]
        refine ⟨fun h => ⟨Or.inl h, Or.inl h⟩, ?_⟩
        rintro ⟨h | rfl, h' | h'⟩
        · exact h
        · exact h
        · exact h'
        · exact absurd (prim.inj h') hab
    · simp only [join, top_covers_iff, prim_covers_iff]
      cases u <;> simp [Covers]
  -- references are joined in the hierarchy, and one that may be null makes the join so
  · rcases t with _ | _ | _ | b | ⟨r', n⟩
    · simp [join, Covers]
    · rw [and_comm]
      exact absorb (ref r m)
    · cases u <;> simp [join, Covers]
      exact fun h _ _ => h
    · simp only [join, top_covers_iff, prim_covers_iff]
      cases u <;> simp [Covers]
    · cases u <;> simp only [join, Covers, and_self]
      rw [Hierarchy.joinRef_le_iff, Bool.or_eq_true, or_imp, and_and_and_comm]

theorem covers_join_left (g : Hierarchy) (s t : FlowType) : Covers g s (join g s t) :=
  (join_covers_iff.1 (Covers.refl g (join g s t))).1

theorem covers_join_right (g : Hierarchy) (s t : FlowType) : Covers g t (join g s t) :=
  (join_covers_iff.1 (Covers.refl g (join g s t))).2

/-- Flow types with their joins. -/
abbrev lattice (g : Hierarchy) : SemilatticeSup FlowType where
  sup := join g
  le := Covers g
  le_refl := Covers.refl g
  le_trans _ _ _ := Covers.trans
  le_antisymm _ _ := Covers.antisymm
  le_sup_left := covers_join_left g
  le_sup_right := covers_join_right g
  sup_le _ _ _ h h' := join_covers_iff.2 ⟨h, h'⟩

/-! ### Laws -/

theorem covers_iff_join_eq : Covers g s t ↔ join g s t = t :=
  letI := lattice g
  (sup_eq_right (a := s) (b := t)).symm

theorem le_iff_covers : le g s t = true ↔ Covers g s t := by
  rw [covers_iff_join_eq]
  simp only [le, Bool.or_eq_true, decide_eq_true_eq, or_iff_right_iff_imp]
  rintro rfl
  exact covers_iff_join_eq.1 (Covers.refl g s)

theorem lt_iff_covers : lt g s t = true ↔ Covers g s t ∧ ¬ Covers g t s := by
  simp only [lt, Bool.and_eq_true, decide_eq_true_eq, ← covers_iff_join_eq, ne_eq]
  constructor
  · rintro ⟨hne, h⟩
    exact ⟨h, fun h' => hne (h.antisymm h')⟩
  · rintro ⟨h, h'⟩
    refine ⟨?_, h⟩
    rintro rfl
    exact h' h

theorem foldl_join_covers_iff (ts : List FlowType) :
    Covers g (ts.foldl (join g) s) u ↔ Covers g s u ∧ ∀ t ∈ ts, Covers g t u := by
  induction ts generalizing s with
  | nil => simp
  | cons t ts ih => rw [List.foldl_cons, ih, join_covers_iff, and_assoc, List.forall_mem_cons]

/-- The join of a list is the least flow type that covers all its members. -/
theorem joinAll_covers_iff {ts : List FlowType} :
    Covers g (joinAll g ts) u ↔ ∀ t ∈ ts, Covers g t u := by
  rw [joinAll, foldl_join_covers_iff]
  exact and_iff_right trivial

theorem joinAll_congr {ss ts : List FlowType} (h : ∀ t, t ∈ ss ↔ t ∈ ts) :
    joinAll g ss = joinAll g ts := by
  refine Covers.antisymm (g := g) (joinAll_covers_iff.2 fun t ht => ?_)
    (joinAll_covers_iff.2 fun t ht => ?_)
  · exact joinAll_covers_iff.1 (Covers.refl g _) t ((h t).1 ht)
  · exact joinAll_covers_iff.1 (Covers.refl g _) t ((h t).2 ht)

theorem isReference_join (hs : s.isReference = true) (ht : t.isReference = true) :
    (join g s t).isReference = true ∧ (join g s t).isNullable = (s.isNullable || t.isNullable) := by
  rcases s with _ | _ | _ | a | ⟨r, m⟩ <;> rcases t with _ | _ | _ | b | ⟨r', n⟩ <;>
    simp_all [join, isReference, isNullable]

/-- What the join of flow types, the order that it gives and the joins of lists satisfy. -/
structure JoinLaws (g : Hierarchy) : Prop where
  comm : ∀ s t, join g s t = join g t s
  assoc : ∀ s t u, join g (join g s t) u = join g s (join g t u)
  idem : ∀ t, join g t t = t
  bottom_join : ∀ t, join g bottom t = t
  top_join : ∀ t, join g top t = top
  le_refl : ∀ t, le g t t = true
  le_trans : ∀ s t u, le g s t = true → le g t u = true → le g s u = true
  le_antisymm : ∀ s t, le g s t = true → le g t s = true → s = t
  le_join_left : ∀ s t, le g s (join g s t) = true
  le_join_right : ∀ s t, le g t (join g s t) = true
  join_le : ∀ s t u, le g s u = true → le g t u = true → le g (join g s t) u = true
  bottom_le : ∀ t, le g bottom t = true
  le_top : ∀ t, le g t top = true
  lt_iff : ∀ s t, lt g s t = true ↔ le g s t = true ∧ ¬ le g t s = true
  joinAll_eq : ∀ ss ts, (∀ t, t ∈ ss ↔ t ∈ ts) → joinAll g ss = joinAll g ts
  join_reference : ∀ s t, s.isReference = true → t.isReference = true →
    (join g s t).isReference = true
  join_nullable : ∀ s t, s.isReference = true → t.isReference = true →
    ((join g s t).isNullable = true ↔ s.isNullable = true ∨ t.isNullable = true)

/-- **Flow types form a bounded join-semilattice** over every hierarchy, whatever its roots and its
interfaces. -/
theorem join_semilattice (g : Hierarchy) : JoinLaws g :=
  letI := lattice g
  { comm := fun s t => sup_comm s t
    assoc := fun s t u => sup_assoc s t u
    idem := fun t => sup_idem t
    bottom_join := fun t => rfl
    top_join := fun t => by cases t <;> rfl
    le_refl := fun t => le_iff_covers.2 (Covers.refl g t)
    le_trans := fun s t u h h' => le_iff_covers.2 ((le_iff_covers.1 h).trans (le_iff_covers.1 h'))
    le_antisymm := fun s t h h' => (le_iff_covers.1 h).antisymm (le_iff_covers.1 h')
    le_join_left := fun s t => le_iff_covers.2 (le_sup_left (a := s) (b := t))
    le_join_right := fun s t => le_iff_covers.2 (le_sup_right (a := s) (b := t))
    join_le := fun s t u h h' =>
      le_iff_covers.2 (join_covers_iff.2 ⟨le_iff_covers.1 h, le_iff_covers.1 h'⟩)
    bottom_le := fun t => le_iff_covers.2 trivial
    le_top := fun t => le_iff_covers.2 (covers_top g t)
    lt_iff := fun s t => by rw [lt_iff_covers, le_iff_covers, le_iff_covers]
    joinAll_eq := fun ss ts => joinAll_congr
    join_reference := fun s t hs ht => (isReference_join hs ht).1
    join_nullable := fun s t hs ht => by rw [(isReference_join hs ht).2, Bool.or_eq_true] }

end FlowType

end JvmLowering
