import JvmLowering.Body.Constant
import JvmLowering.JvmType.Verification

/-!
# Operations

What an instruction does, apart from the values that it reads and makes.
-/

namespace JvmLowering

inductive BinaryOp where
  | add | sub | mul | div | rem | and | or | xor | shl | shr | ushr
deriving DecidableEq, Repr

def BinaryOp.all : List BinaryOp := [add, sub, mul, div, rem, and, or, xor, shl, shr, ushr]

def BinaryOp.name : BinaryOp → String
  | add => "add"
  | sub => "sub"
  | mul => "mul"
  | div => "div"
  | rem => "rem"
  | and => "and"
  | or => "or"
  | xor => "xor"
  | shl => "shl"
  | shr => "shr"
  | ushr => "ushr"

/-- How the method of a call is found. -/
inductive InvokeMode where
  | static | virtual | special | interface
deriving DecidableEq, Repr

def InvokeMode.all : List InvokeMode := [static, virtual, special, interface]

def InvokeMode.name : InvokeMode → String
  | static => "static"
  | virtual => "virtual"
  | special => "special"
  | interface => "interface"

inductive Condition where
  | eq | ne | lt | ge | gt | le
deriving DecidableEq, Repr

def Condition.all : List Condition := [eq, ne, lt, ge, gt, le]

def Condition.name : Condition → String
  | eq => "eq"
  | ne => "ne"
  | lt => "lt"
  | ge => "ge"
  | gt => "gt"
  | le => "le"

/-- A field of a class. -/
structure FieldRef where
  owner : ClassId
  name : UnqualifiedName
  type : FieldType ClassId
  isStatic : Bool
deriving DecidableEq

inductive Operation where
  /-- An argument of the method; the receiver of an instance method has index 0. -/
  | argument (index : Nat)
  | constant (c : Constant)
  | binary (op : BinaryOp)
  | convert (source target : BaseType)
  | compare
  | checkCast (t : RefType ClassId)
  | instanceOf (t : RefType ClassId)
  | arrayLength
  | arrayGet
  | arrayPut
  | newInstance (c : ClassId)
  | newArray (t : RefType ClassId)
  | invoke (m : MethodId) (mode : InvokeMode)
  | fieldGet (f : FieldRef)
  | fieldPut (f : FieldRef)
  | monitorEnter
  | monitorExit
  /-- The caught exception, at the start of a handler. -/
  | moveException (c : ClassId)
  | goto
  /-- To the first successor if the condition holds, else to the second. -/
  | branch (c : Condition)
  | ret
  | raise
  /-- Pushes the local variable of its input. -/
  | load
  /-- Pops its input into the local variable of its output. -/
  | store
  /-- Drops its input from the stack. -/
  | pop
deriving DecidableEq

namespace Operation

instance : Inhabited Operation := ⟨goto⟩

def isArgument : Operation → Bool
  | argument _ => true
  | _ => false

def isConstant : Operation → Bool
  | constant _ => true
  | _ => false

def isGoto : Operation → Bool
  | goto => true
  | _ => false

/-- The flow type of the output needs neither the inputs nor the signature of the method. -/
def hasOwnType : Operation → Bool
  | argument _ | checkCast _ | arrayGet | load | store => false
  | _ => true

/-- The same for the type that the verifier sees: a cast is of its type, and an array read goes by
the declared array. -/
def hasOwnVerificationType : Operation → Bool
  | argument _ | load | store => false
  | _ => true

/-- Could raise an exception. Only integer division does, and a division of unknown type counts as
one. -/
def canThrow (out : Option (DeclaredType ClassId)) : Operation → Bool
  | binary .div | binary .rem =>
    match out with
    | some (.field (.base .float)) | some (.field (.base .double)) => false
    | _ => true
  | constant (.cls _) | checkCast _ | arrayLength | arrayGet | arrayPut | newInstance _ | newArray
      _ | invoke _ _ | fieldGet _
  | fieldPut _ | monitorEnter | monitorExit | raise => true
  | _ => false

/-- Equal operations, where floating point constants compare as numbers. -/
def same : Operation → Operation → Bool
  | constant a, constant b => a.same b
  | a, b => a = b

end Operation

end JvmLowering
