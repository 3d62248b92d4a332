/-!
# Names

Members of classes have unqualified names and classes have binary names, whose segments are divided
by slashes. A segment has at least one character, and none of `.`, `;`, `[` and `/`.
-/

namespace JvmLowering

/-- Why a text is not a name. -/
inductive NameError where
  | emptySegment (whole : String)
  | illegalChar (whole : String) (c : Char)
deriving DecidableEq, Repr

def NameError.message : NameError → String
  | emptySegment whole => s!"'{whole}' has an empty name segment"
  | illegalChar whole c => s!"'{whole}' contains an illegal character '{c}'"

/-- Characters that no segment has. -/
def isReserved (c : Char) : Bool := c == '.' || c == ';' || c == '[' || c == '/'

/-- What is wrong with a segment of the name `whole`: that it is empty, or its first reserved
character. -/
def segmentError? (whole : String) (segment : List Char) : Option NameError :=
  if segment.isEmpty then some (.emptySegment whole)
  else (segment.find? isReserved).map (.illegalChar whole)

/-- The parts of a text between its slashes. -/
def segments : List Char → List (List Char)
  | [] => [[]]
  | c :: cs =>
    if c = '/' then [] :: segments cs
    else
      match segments cs with
      | [] => [[c]]
      | s :: ss => (c :: s) :: ss

/-! ### Unqualified names -/

def UnqualifiedName.error? (text : String) : Option NameError := segmentError? text text.toList

/-- The name of a field or a method: one segment. -/
structure UnqualifiedName where
  text : String
  wellFormed : UnqualifiedName.error? text = none
deriving DecidableEq

namespace UnqualifiedName

def ofString (text : String) : Except NameError UnqualifiedName :=
  match h : error? text with
  | none => .ok ⟨text, h⟩
  | some e => .error e

/-- The name of instance initialisers. -/
def init : UnqualifiedName := ⟨"<init>", by decide⟩

end UnqualifiedName

/-! ### Binary names -/

def BinaryName.error? (text : String) : Option NameError :=
  (segments text.toList).findSome? (segmentError? text)

/-- The name of a class: segments with slashes between them. -/
structure BinaryName where
  text : String
  wellFormed : BinaryName.error? text = none
deriving DecidableEq

namespace BinaryName

def ofString (text : String) : Except NameError BinaryName :=
  match h : error? text with
  | none => .ok ⟨text, h⟩
  | some e => .error e

/-! The classes of the platform. -/

def object : BinaryName := ⟨"java/lang/Object", by decide⟩
def serializable : BinaryName := ⟨"java/io/Serializable", by decide⟩
def cloneable : BinaryName := ⟨"java/lang/Cloneable", by decide⟩
def comparable : BinaryName := ⟨"java/lang/Comparable", by decide⟩
def charSequence : BinaryName := ⟨"java/lang/CharSequence", by decide⟩
def string : BinaryName := ⟨"java/lang/String", by decide⟩
def cls : BinaryName := ⟨"java/lang/Class", by decide⟩
def number : BinaryName := ⟨"java/lang/Number", by decide⟩
def integer : BinaryName := ⟨"java/lang/Integer", by decide⟩
def long : BinaryName := ⟨"java/lang/Long", by decide⟩
def throwable : BinaryName := ⟨"java/lang/Throwable", by decide⟩
def error : BinaryName := ⟨"java/lang/Error", by decide⟩
def exception : BinaryName := ⟨"java/lang/Exception", by decide⟩
def runtimeException : BinaryName := ⟨"java/lang/RuntimeException", by decide⟩

end BinaryName

end JvmLowering
