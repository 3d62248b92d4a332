import JvmLowering.Hierarchy.Ancestors
import JvmLowering.Hierarchy.Subtyping
import JvmLowering.JvmType.Verification

/-!
# Flow types

What is known about the value that reaches a point of the code: nothing has reached it, it is
`null`, it is primitive, it is a reference of some type that may or may not be `null`, or nothing at
all can be said. Two flow types have a join, the most precise one that covers both.
-/

namespace JvmLowering

/-! ### Joins of reference types -/

namespace Hierarchy

/-- How many array dimensions remain, with which class below them, when an innermost array of
primitive values is taken as an object. -/
def arrayShape (extra : Nat) : Element ClassId → Nat × ClassId
  | .base _ => (extra, object)
  | .cls c => (extra + 1, c)

/-- The join of arrays of classes with the given dimensions. Different numbers of dimensions meet at
arrays of objects. -/
def joinShapes (g : Hierarchy) : Nat × ClassId → Nat × ClassId → RefType ClassId
  | (m + 1, a), (n + 1, b) =>
    if m = n then .array m (.cls (g.leastUpperBound a b)) else .array (min m n) (.cls object)
  | _, _ => .object object

/-- Arrays and classes meet at `java/lang/Object` alone. -/
def joinRef (g : Hierarchy) : RefType ClassId → RefType ClassId → RefType ClassId
  | .object a, .object b => .object (g.leastUpperBound a b)
  | .array m a, .array n b =>
    if m = n ∧ a = b then .array m a else g.joinShapes (arrayShape m a) (arrayShape n b)
  | _, _ => .object object

end Hierarchy

/-! ### Flow types -/

inductive FlowType where
  /-- No value. -/
  | bottom
  /-- Any value. -/
  | top
  | null
  | prim (b : BaseType)
  | ref (r : RefType ClassId) (nullable : Bool)
deriving DecidableEq, Repr

namespace FlowType

instance : Inhabited FlowType := ⟨bottom⟩

def ofField (nullable : Bool) : FieldType ClassId → FlowType
  | .base b => prim b
  | .ref r => ref r nullable

def ofDeclared (nullable : Bool) : DeclaredType ClassId → FlowType
  | .null => null
  | .field t => ofField nullable t

def refType? : FlowType → Option (RefType ClassId)
  | ref r _ => some r
  | _ => none

def isNullable : FlowType → Bool
  | null => true
  | ref _ nullable => nullable
  | _ => false

def withNullability (nullable : Bool) : FlowType → FlowType
  | ref r _ => ref r nullable
  | t => t

def isReference : FlowType → Bool
  | null | ref _ _ => true
  | _ => false

def isPrimitive : FlowType → Bool
  | prim _ => true
  | _ => false

def render (g : Hierarchy) : FlowType → String
  | bottom => "bottom"
  | top => "top"
  | null => "null"
  | prim b => b.letter.toString
  | ref r nullable => r.render g.className ++ if nullable then "?" else ""

/-! ### The order -/

/-- The most precise flow type that covers both. -/
def join (g : Hierarchy) : FlowType → FlowType → FlowType
  | bottom, t => t
  | t, bottom => t
  | null, null => null
  | null, ref r _ => ref r true
  | ref r _, null => ref r true
  | prim a, prim b => if a = b then prim a else top
  | ref r m, ref s n => ref (g.joinRef r s) (m || n)
  | _, _ => top

/-- The join of all flow types of a list. -/
def joinAll (g : Hierarchy) (ts : List FlowType) : FlowType := ts.foldl (join g) bottom

/-- The second covers the first. -/
def le (g : Hierarchy) (s t : FlowType) : Bool := s = t || join g s t = t

def lt (g : Hierarchy) (s t : FlowType) : Bool := s ≠ t && join g s t = t

/-! ### Rules -/

/-- What passes a cast: a value that was of the type already keeps what is known about it. -/
def checkCast (g : Hierarchy) (target : RefType ClassId) : FlowType → FlowType
  | bottom => bottom
  | null | top | prim _ => ref target true
  | ref r nullable => if g.isAssignable r target then ref r nullable else ref target nullable

/-- What is read from an array. -/
def arrayGet : FlowType → FlowType
  | bottom => bottom
  | ref (.array 0 (.base b)) _ => prim b
  | ref (.array 0 (.cls c)) _ => ref (.object c) true
  | ref (.array (extra + 1) e) _ => ref (.array extra e) true
  | _ => top

end FlowType

end JvmLowering
