import JvmLowering.Proofs.Hierarchy.Assignability
import JvmLowering.Typing.VerifierTyping

/-!
# Joins and assignability

In conventional hierarchies the join of reference types is the least type that all of them are
assignable to, among the types that mention no interface.

* `IsLeastAssignable`: what the join of a list of types has to be;
* `VerifierTyping.joinTypes_cons`: the join of a list, from its first type on;
* `FlowType.join_agrees_with_assignability`: the statement for two flow types and for lists of
  types.
-/

namespace JvmLowering

open Hierarchy

variable {g : Hierarchy} {r t : RefType ClassId}

/-- All types of the list are assignable to `u`, and `u` is assignable to every other type of this
kind that mentions no interface. -/
structure IsLeastAssignable (g : Hierarchy) (ts : List (RefType ClassId)) (u : RefType ClassId) :
    Prop where
  upper : ∀ t ∈ ts, g.isAssignable t u = true
  least : ∀ t, g.Knows t → g.InterfaceFree t → (∀ s ∈ ts, g.isAssignable s t = true) →
    g.isAssignable u t = true

/-! ### Joins of one type with others -/

/-- The join of types, from the first one on, is their least upper bound in the tree. -/
theorem Hierarchy.foldl_joinRef_le_iff (ts : List (RefType ClassId)) :
    g.RefLE (ts.foldl g.joinRef r) t ↔ ∀ s ∈ r :: ts, g.RefLE s t := by
  induction ts generalizing r with
  | nil => simp
  | cons s ts ih =>
    rw [List.foldl_cons, ih, List.forall_mem_cons, joinRef_le_iff, List.forall_mem_cons,
      List.forall_mem_cons, and_assoc]

theorem Hierarchy.WellFormed.knows_foldl_joinRef (hw : g.WellFormed) (ts : List (RefType ClassId))
    (hr : g.Knows r) :
    g.Knows (ts.foldl g.joinRef r) := by
  induction ts generalizing r with
  | nil => exact hr
  | cons t ts ih => exact ih (hw.knows_joinRef hr)

theorem Hierarchy.Conventional.isLeastAssignable_foldl (hv : g.Conventional) (hw : g.WellFormed)
    (ts : List (RefType ClassId)) (hts : ∀ t ∈ r :: ts, g.Knows t) :
    IsLeastAssignable g (r :: ts) (ts.foldl g.joinRef r) := by
  constructor
  · intro t ht
    exact hv.isAssignable_of_refLE hw (hts t ht) ((foldl_joinRef_le_iff ts).1 (RefLE.refl g _) t ht)
  · intro t ht hf hall
    have hle : g.RefLE (ts.foldl g.joinRef r) t :=
      (foldl_joinRef_le_iff ts).2 fun s hs => hv.refLE_of_isAssignable hw ht hf (hall s hs)
    exact hv.isAssignable_of_refLE hw (hw.knows_foldl_joinRef ts (hts r List.mem_cons_self)) hle

/-! ### Joins of lists -/

namespace VerifierTyping

/-- The join of reference types as flow types that are not null. -/
def joinList (g : Hierarchy) (ts : List (RefType ClassId)) : FlowType :=
  FlowType.joinAll g (ts.map fun t => FlowType.ref t false)

/-- A single type needs no case of its own. -/
theorem joinTypes_eq (g : Hierarchy) (ts : List (RefType ClassId)) :
    joinTypes g ts =
      match (joinList g ts).refType? with
      | some t => .ok t
      | none => .error (.nonReferenceJoin none (joinList g ts)) := by
  rcases ts with _ | ⟨t, _ | ⟨t', ts⟩⟩ <;> rfl

theorem foldl_join_ref (g : Hierarchy) (r : RefType ClassId) (ts : List (RefType ClassId)) :
    (ts.map fun t => FlowType.ref t false).foldl (FlowType.join g) (FlowType.ref r false) =
      FlowType.ref (ts.foldl g.joinRef r) false := by
  induction ts generalizing r with
  | nil => rfl
  | cons t ts ih => exact ih (g.joinRef r t)

theorem joinTypes_cons (g : Hierarchy) (r : RefType ClassId) (ts : List (RefType ClassId)) :
    joinTypes g (r :: ts) = .ok (ts.foldl g.joinRef r) := by
  have hjoin : joinList g (r :: ts) = FlowType.ref (ts.foldl g.joinRef r) false :=
    foldl_join_ref g r ts
  rw [joinTypes_eq, hjoin]
  rfl

theorem joinTypes_congr {ss ts : List (RefType ClassId)} (h : ∀ t, t ∈ ss ↔ t ∈ ts) :
    joinTypes g ss = joinTypes g ts := by
  have hjoin : joinList g ss = joinList g ts := by
    refine FlowType.joinAll_congr fun u => ?_
    simp only [List.mem_map, h]
  rw [joinTypes_eq, joinTypes_eq, hjoin]

end VerifierTyping

open VerifierTyping

/-- **The join agrees with assignability.** Two types join to the least type that both are
assignable to. A list of types has a join iff it is not empty, the join hangs on the members of the
list alone, and it is the least type that all of them are assignable to. -/
theorem FlowType.join_agrees_with_assignability (hg : g.Grown) (hv : g.Conventional) :
    (∀ r s : RefType ClassId, ∀ m n : Bool, g.Knows r → g.Knows s →
      ∃ u, (join g (ref r m) (ref s n)).refType? = some u ∧ IsLeastAssignable g [r, s] u) ∧
    ∀ ts : List (RefType ClassId), (∀ t ∈ ts, g.Knows t) →
      ((∃ u, joinTypes g ts = .ok u) ↔ ts ≠ []) ∧
      (∀ ss, (∀ t, t ∈ ss ↔ t ∈ ts) → joinTypes g ss = joinTypes g ts) ∧
      ∀ u, joinTypes g ts = .ok u → IsLeastAssignable g ts u := by
  have hw := hg.wellFormed
  constructor
  · intro r s m n hr hs
    refine ⟨g.joinRef r s, rfl, hv.isLeastAssignable_foldl hw [s] ?_⟩
    simpa using ⟨hr, hs⟩
  · intro ts hts
    refine ⟨?_, fun ss h => joinTypes_congr h, ?_⟩
    · rcases ts with _ | ⟨r, ts⟩
      · simp [joinTypes_eq, joinList, FlowType.joinAll, FlowType.refType?]
      · simp [joinTypes_cons]
    · intro u hu
      rcases ts with _ | ⟨r, ts⟩
      · simp [joinTypes_eq, joinList, FlowType.joinAll, FlowType.refType?] at hu
      · rw [joinTypes_cons, Except.ok.injEq] at hu
        rw [← hu]
        exact hv.isLeastAssignable_foldl hw ts hts

/-- Arrays of the platform's two kinds of numbers meet at arrays of their common superclass. -/
theorem FlowType.join_agrees_on_numbers :
    Hierarchy.platform.Conventional ∧
      IsLeastAssignable Hierarchy.platform [.array 0 (.cls ⟨8⟩), .array 0 (.cls ⟨9⟩)]
        (.array 0 (.cls ⟨7⟩)) := by
  have hv : Hierarchy.platform.Conventional := by decide +kernel
  refine ⟨hv, ((join_agrees_with_assignability Grown.initial.addPlatform hv).2 _ ?_).2.2 _ ?_⟩
  · decide +kernel
  · decide +kernel

end JvmLowering
