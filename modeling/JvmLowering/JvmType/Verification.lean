import JvmLowering.JvmType.Descriptor

/-!
# Types of slots

What the verifier knows about a slot of a frame, what a value is declared to be, and what an entry
of the operand stack holds. The small integer types all share one kind of slot.
-/

namespace JvmLowering

variable {C : Type}

/-- What the verifier knows about a slot. -/
inductive VerificationType (C : Type) where
  /-- A slot that cannot be used. -/
  | top
  | integer
  | float
  | double
  | long
  | null
  /-- The receiver of an initialiser that has not yet called another one. -/
  | uninitializedThis
  | object (r : RefType C)
deriving DecidableEq, Repr

namespace VerificationType

instance : HasWidth (VerificationType C) where
  width
    | double | long => 2
    | _ => 1

def ofBase : BaseType → VerificationType C
  | .int | .char | .short | .byte | .boolean => integer
  | .float => float
  | .long => long
  | .double => double

def ofField : FieldType C → VerificationType C
  | .base b => ofBase b
  | .ref r => object r

def render (name : C → String) : VerificationType C → String
  | top => "top"
  | integer => "int"
  | float => "float"
  | double => "double"
  | long => "long"
  | null => "null"
  | uninitializedThis => "uninitializedThis"
  | object r => r.render name

end VerificationType

/-- The local variables in scope and the operand stack at a point of the code. -/
structure Frame (C : Type) where
  locals : Slots (VerificationType C) := {}
  stack : Slots (VerificationType C) := {}
deriving DecidableEq, Repr

/-- The type that a value is declared with: that of a field, or that of `null`, which has no
descriptor. -/
inductive DeclaredType (C : Type) where
  | null
  | field (t : FieldType C)
deriving DecidableEq, Repr

namespace DeclaredType

instance : HasWidth (DeclaredType C) where
  width
    | null => 1
    | field t => width t

def isReference : DeclaredType C → Bool
  | null => true
  | field t => t.isReference

def refType? : DeclaredType C → Option (RefType C)
  | field (.ref r) => some r
  | _ => none

def render (name : C → String) : DeclaredType C → String
  | null => "null"
  | field t => t.render name

end DeclaredType

/-- What an entry of the operand stack holds. -/
inductive StackType (C : Type) where
  | object (r : RefType C)
  | null
  | int
  | float
  | long
  | double
deriving DecidableEq, Repr

namespace StackType

instance : HasWidth (StackType C) where
  width
    | long | double => 2
    | _ => 1

def ofBase : BaseType → StackType C
  | .int | .char | .short | .byte | .boolean => int
  | .float => float
  | .long => long
  | .double => double

def ofDeclared : DeclaredType C → StackType C
  | .null => null
  | .field (.ref r) => object r
  | .field (.base b) => ofBase b

def isObject : StackType C → Bool
  | object _ | null => true
  | _ => false

def verificationType : StackType C → VerificationType C
  | object r => .object r
  | null => .null
  | int => .integer
  | float => .float
  | long => .long
  | double => .double

def render (name : C → String) (t : StackType C) : String := t.verificationType.render name

/-- An entry is as wide as what it stands for is declared. -/
theorem width_ofDeclared (t : DeclaredType C) : width (ofDeclared t) = width t := by
  rcases t with _ | (b | r)
  · rfl
  · cases b <;> rfl
  · rfl

end StackType

end JvmLowering
