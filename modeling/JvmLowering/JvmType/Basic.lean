import JvmLowering.Slots

/-!
# Types of the virtual machine

Base types, reference types, the types of fields and the types of methods. What stands for a class
is a parameter `C`: a name while a descriptor is read, an index once it has been resolved.
-/

namespace JvmLowering

/-- Types of primitive values. -/
inductive BaseType where
  | byte
  | char
  | double
  | float
  | int
  | long
  | short
  | boolean
deriving DecidableEq, Repr

namespace BaseType

def letter : BaseType → Char
  | byte => 'B'
  | char => 'C'
  | double => 'D'
  | float => 'F'
  | int => 'I'
  | long => 'J'
  | short => 'S'
  | boolean => 'Z'

def ofLetter? : Char → Option BaseType
  | 'B' => some byte
  | 'C' => some char
  | 'D' => some double
  | 'F' => some float
  | 'I' => some int
  | 'J' => some long
  | 'S' => some short
  | 'Z' => some boolean
  | _ => none

def name : BaseType → String
  | byte => "Byte"
  | char => "Char"
  | double => "Double"
  | float => "Float"
  | int => "Int"
  | long => "Long"
  | short => "Short"
  | boolean => "Boolean"

instance : HasWidth BaseType where
  width
    | double | long => 2
    | _ => 1

end BaseType

/-- What the innermost arrays of an array type hold. -/
inductive Element (C : Type) where
  | base (b : BaseType)
  | cls (c : C)
deriving DecidableEq, Repr

/-- A class type, or an array type with `extra` dimensions beyond the first. -/
inductive RefType (C : Type) where
  | object (c : C)
  | array (extra : Nat) (element : Element C)
deriving DecidableEq, Repr

/-- The type of a field, a parameter or a local variable. -/
inductive FieldType (C : Type) where
  | base (b : BaseType)
  | ref (r : RefType C)
deriving DecidableEq, Repr

/-- The type of a method; no result is `void`. -/
structure MethodType (C : Type) where
  parameters : List (FieldType C)
  result : Option (FieldType C)
deriving DecidableEq, Repr

variable {C : Type}

namespace FieldType

instance : HasWidth (FieldType C) where
  width
    | base b => width b
    | ref _ => 1

def isReference : FieldType C → Bool
  | base _ => false
  | ref _ => true

def object (c : C) : FieldType C := ref (.object c)

/-- The array type whose elements have the given type. -/
def arrayOf : FieldType C → RefType C
  | base b => .array 0 (.base b)
  | ref (.object c) => .array 0 (.cls c)
  | ref (.array extra e) => .array (extra + 1) e

/-- The type with `dims` dimensions over an element. -/
def ofElement : (dims : Nat) → Element C → FieldType C
  | 0, .base b => base b
  | 0, .cls c => object c
  | extra + 1, e => ref (.array extra e)

/-- How many array dimensions the type has. -/
def dims : FieldType C → Nat
  | base _ | ref (.object _) => 0
  | ref (.array extra _) => extra + 1

/-- What remains when all array dimensions are taken off. -/
def element : FieldType C → Element C
  | base b => .base b
  | ref (.object c) => .cls c
  | ref (.array _ e) => e

end FieldType

/-! ### Replacing what stands for classes -/

section Traverse

variable {D ε : Type}

def RefType.traverse (f : C → Except ε D) : RefType C → Except ε (RefType D)
  | .object c => do return .object (← f c)
  | .array extra (.cls c) => do return .array extra (.cls (← f c))
  | .array extra (.base b) => .ok (.array extra (.base b))

def FieldType.traverse (f : C → Except ε D) : FieldType C → Except ε (FieldType D)
  | .base b => .ok (.base b)
  | .ref r => do return .ref (← r.traverse f)

/-- The parameters in order, then the result. -/
def MethodType.traverse (f : C → Except ε D) (m : MethodType C) : Except ε (MethodType D) := do
  let parameters ← m.parameters.mapM (FieldType.traverse f)
  match m.result with
  | none => return ⟨parameters, none⟩
  | some t => return ⟨parameters, some (← t.traverse f)⟩

end Traverse

end JvmLowering
