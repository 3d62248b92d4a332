import JvmLowering.Hierarchy.Basic
import JvmLowering.Measure

/-!
# Subtyping

A class is assignable to each class that is reached from it over superclasses and, if that is an
interface, over interfaces. Array types are covariant, and the only class types above them are the
three that all arrays have.
-/

namespace JvmLowering.Hierarchy

/-- The direct supertypes of a class, with or without its interfaces. -/
def parents (g : Hierarchy) (withInterfaces : Bool) (c : ClassId) : List ClassId :=
  (g.cls c).superclass.toList ++ if withInterfaces then (g.cls c).interfaces else []

/-- What the classes not yet visited can still add to the search. -/
def searchLeft (g : Hierarchy) (next : ClassId → List ClassId) (visited : List ClassId) : Nat :=
  sumOver (fun c => if c ∈ visited then 0 else (next c).length + 1) g.classes.indices

theorem searchLeft_cons {g : Hierarchy} (next : ClassId → List ClassId) {visited : List ClassId}
    {c : ClassId} (hc : c ∈ g.classes) (hv : c ∉ visited) :
    g.searchLeft next (c :: visited) + ((next c).length + 1) ≤ g.searchLeft next visited := by
  unfold searchLeft
  refine sumOver_add_le (Table.mem_indices.mpr hc) (fun b _ => ?_) ?_
  · by_cases hb : b ∈ visited
    · simp [hb]
    · by_cases hbc : b = c <;> simp [hb, hbc]
  · simp [hv]

/-- All classes reached from `pending` along `next`, beside those visited before. A class is marked
when it is taken up and not when it is put in line, and the search does not stop at a class that is
looked for. The classes are collected in full, so neither matters to whether a class is among
them. -/
def search (g : Hierarchy) (next : ClassId → List ClassId) (pending visited : List ClassId) :
    List ClassId :=
  match pending with
  | [] => visited
  | c :: rest =>
    if h : c ∈ g.classes ∧ c ∉ visited then
      have := searchLeft_cons next h.1 h.2
      g.search next (next c ++ rest) (c :: visited)
    else g.search next rest visited
termination_by pending.length + g.searchLeft next visited
decreasing_by
  · simp only [List.length_append, List.length_cons]
    omega
  · simp

/-- A class and all its supertypes, those over interfaces only if they are asked for. -/
def supertypes (g : Hierarchy) (withInterfaces : Bool) (c : ClassId) : List ClassId :=
  g.search (g.parents withInterfaces) [c] []

/-- Interfaces are searched only for an interface. -/
def isSubclass (g : Hierarchy) (a b : ClassId) : Bool := b ∈ g.supertypes (g.cls b).isInterface a

/-- The class types that every array type is assignable to. -/
def isAboveArrays (g : Hierarchy) (c : ClassId) : Bool :=
  let name := (g.cls c).name
  name = .object || name = .cloneable || name = .serializable

def isAssignable (g : Hierarchy) : RefType ClassId → RefType ClassId → Bool
  | .object a, .object b => g.isSubclass a b
  | .object _, .array _ _ => false
  | .array _ _, .object b => g.isAboveArrays b
  | .array m (.base a), .array n (.base b) => m = n && a = b
  | .array m (.base _), .array n (.cls b) => n < m && g.isAboveArrays b
  | .array m (.cls a), .array n (.cls b) =>
    if m = n then g.isSubclass a b else n < m && g.isAboveArrays b
  | .array _ (.cls _), .array _ (.base _) => false

end JvmLowering.Hierarchy
