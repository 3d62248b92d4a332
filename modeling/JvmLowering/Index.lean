import Std.Data.TreeMap
import Std.Data.TreeSet

/-!
# Indices

Classes, methods, values, instructions and blocks are numbered in the order in which they are
made. Each kind has an index type of its own, ordered by number.
-/

namespace JvmLowering

/-- The kinds of things that are numbered. -/
inductive Entity where
  | cls
  | method
  | value
  | instruction
  | block

/-- The number of a thing of kind `k`. -/
structure Index (k : Entity) where
  num : Nat
deriving DecidableEq, Repr

abbrev ClassId := Index .cls
abbrev MethodId := Index .method
abbrev ValueId := Index .value
abbrev InsnId := Index .instruction
abbrev BlockId := Index .block

namespace Index

variable {k : Entity}

instance : LawfulBEq (Index k) := inferInstance

instance : Ord (Index k) := ⟨fun i j => compare i.num j.num⟩

theorem compare_eq (i j : Index k) : compare i j = compare i.num j.num := rfl

instance : Std.TransOrd (Index k) where
  eq_swap := by
    intro i j
    simp only [compare_eq]
    exact Std.OrientedCmp.eq_swap
  isLE_trans := by
    intro i j l hij hjl
    simp only [compare_eq] at *
    exact Std.TransCmp.isLE_trans hij hjl

instance : Std.LawfulEqOrd (Index k) where
  compare_self := by simp
  eq_of_compare := by
    intro i j h
    cases i
    cases j
    simpa [compare_eq] using h

/-- The first number of a kind. -/
def first : Index k := ⟨0⟩

end Index

/-- A value is written `v` and its number. -/
def ValueId.render (v : ValueId) : String := s!"v{v.num}"

/-- An instruction is written `i` and its number. -/
def InsnId.render (i : InsnId) : String := s!"i{i.num}"

/-- A block is written `b` and its number. -/
def BlockId.render (b : BlockId) : String := s!"b{b.num}"

end JvmLowering
