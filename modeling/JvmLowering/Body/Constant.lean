import JvmLowering.Hierarchy.Basic
import JvmLowering.Text.Quoted

/-!
# Constants

Floating point constants are kept as their bits.
-/

namespace JvmLowering

/-! ### Floating point numbers as bits -/

/-- A binary floating point format: the weight of the sign bit, and the bits of infinity. -/
structure FloatFormat where
  sign : Nat
  infinity : Nat

namespace FloatFormat

def single : FloatFormat := ⟨0x80000000, 0x7f800000⟩
def double : FloatFormat := ⟨0x8000000000000000, 0x7ff0000000000000⟩

/-- The bits without the sign. -/
def magnitude (f : FloatFormat) (bits : Nat) : Nat := bits % f.sign

/-- What lies beyond infinity is not a number. -/
def isNaN (f : FloatFormat) (bits : Nat) : Bool := f.infinity < f.magnitude bits

/-- The numbers are equal: both zeros are, and what is not a number is equal to nothing. -/
def same (f : FloatFormat) (a b : Nat) : Bool :=
  !f.isNaN a && !f.isNaN b && (a = b || f.magnitude a = 0 && f.magnitude b = 0)

end FloatFormat

/-! ### Constants -/

inductive Number where
  | int (n : Int32)
  | long (n : Int64)
  | float (bits : UInt32)
  | double (bits : UInt64)
deriving DecidableEq

namespace Number

def baseType : Number → BaseType
  | int _ => .int
  | long _ => .long
  | float _ => .float
  | double _ => .double

/-- Equality as numbers of one type. -/
def same : Number → Number → Bool
  | int m, int n => m = n
  | long m, long n => m = n
  | float a, float b => FloatFormat.single.same a.toNat b.toNat
  | double a, double b => FloatFormat.double.same a.toNat b.toNat
  | _, _ => false

def render : Number → String
  | int n => "Int(" ++ toString n.toInt ++ ")"
  | long n => "Long(" ++ toString n.toInt ++ ")"
  | float bits => "Float(#" ++ toString bits.toNat ++ ")"
  | double bits => "Double(#" ++ toString bits.toNat ++ ")"

end Number

/-- What an instruction can push without computing anything. -/
inductive Constant where
  | number (n : Number)
  | string (text : String)
  | null
  | cls (t : RefType ClassId)
deriving DecidableEq

namespace Constant

def same : Constant → Constant → Bool
  | number m, number n => m.same n
  | a, b => a = b

/-- A type as a constant names it, by its parts. -/
def renderType (g : Hierarchy) : RefType ClassId → String
  | .object c => "Object(" ++ g.className c ++ ")"
  | .array extra (.cls c) => array "ObjectArray" extra (g.className c)
  | .array extra (.base b) => array "PrimitiveArray" extra b.name
where
  array (kind : String) (extra : Nat) (element : String) : String :=
    kind ++ "(ArrayType \x7b additional_dimensions: " ++ toString extra ++ ", element_type: " ++
      element ++ " \x7d)"

def render (g : Hierarchy) : Constant → String
  | number n => "ConstNumber(" ++ n.render ++ ")"
  | string text => "ConstString(" ++ Text.quote text ++ ")"
  | null => "ConstNull"
  | cls t => "ConstClass(" ++ renderType g t ++ ")"

end Constant

end JvmLowering
