/-!
# Access flags

Classes and methods carry sixteen bits of flags. A flag has a name and one bit; the other bits are
unknown.
-/

namespace JvmLowering

/-- A named bit. -/
structure Flag where
  name : String
  bit : UInt16
deriving DecidableEq, Repr

/-! ### Sets of flags -/

/-- A set of the flags of a list, as bits. -/
structure FlagSet (known : List Flag) where
  bits : UInt16
deriving DecidableEq, Repr

namespace FlagSet

variable {known : List Flag}

def ofList (flags : List Flag) : FlagSet known := ⟨flags.foldl (fun bits f => bits ||| f.bit) 0⟩

/-- All known flags. -/
def full : FlagSet known := ofList known

/-- Keeps the known bits. -/
def truncate (bits : UInt16) : FlagSet known := ⟨bits &&& (full : FlagSet known).bits⟩

/-- Refuses unknown bits. -/
def ofBits? (bits : UInt16) : Option (FlagSet known) :=
  let kept : FlagSet known := truncate bits
  if kept.bits = bits then some kept else none

def has (s : FlagSet known) (f : Flag) : Bool := s.bits &&& f.bit == f.bit

/-- The names of the set flags, in the order in which the flags are listed. -/
def render (s : FlagSet known) : String :=
  match known.filter s.has with
  | [] => "(empty)"
  | set => " | ".intercalate (set.map Flag.name)

end FlagSet

/-! ### Flags of classes -/

namespace ClassFlag

def isPublic : Flag := ⟨"PUBLIC", 0x0001⟩
def isFinal : Flag := ⟨"FINAL", 0x0010⟩
def isSuper : Flag := ⟨"SUPER", 0x0020⟩
def isInterface : Flag := ⟨"INTERFACE", 0x0200⟩
def isAbstract : Flag := ⟨"ABSTRACT", 0x0400⟩
def isSynthetic : Flag := ⟨"SYNTHETIC", 0x1000⟩

def all : List Flag := [isPublic, isFinal, isSuper, isInterface, isAbstract, isSynthetic]

end ClassFlag

abbrev ClassFlags := FlagSet ClassFlag.all

/-! ### Flags of methods -/

namespace MethodFlag

def isPublic : Flag := ⟨"PUBLIC", 0x0001⟩
def isPrivate : Flag := ⟨"PRIVATE", 0x0002⟩
def isProtected : Flag := ⟨"PROTECTED", 0x0004⟩
def isStatic : Flag := ⟨"STATIC", 0x0008⟩
def isFinal : Flag := ⟨"FINAL", 0x0010⟩
def isSynchronized : Flag := ⟨"SYNCHRONIZED", 0x0020⟩
def isAbstract : Flag := ⟨"ABSTRACT", 0x0400⟩
def isSynthetic : Flag := ⟨"SYNTHETIC", 0x1000⟩

def all : List Flag :=
  [isPublic, isPrivate, isProtected, isStatic, isFinal, isSynchronized, isAbstract, isSynthetic]

end MethodFlag

abbrev MethodFlags := FlagSet MethodFlag.all

end JvmLowering
