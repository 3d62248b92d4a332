import JvmLowering.JvmType.Basic
import JvmLowering.Name

/-!
# Descriptors

The written form of types. A base type is a letter, a class type is its name between `L` and `;`,
and each array dimension is a `[` in front. A method type is its parameters in parentheses and then
its result, where `V` is no result. Writers take the text of a class; the readers give back classes
by name.
-/

namespace JvmLowering

/-! ### Writing -/

section Render

variable {C : Type} (name : C → String)

def Element.chars : Element C → List Char
  | .base b => [b.letter]
  | .cls c => 'L' :: ((name c).toList ++ [';'])

def RefType.chars : RefType C → List Char
  | .object c => (Element.cls c).chars name
  | .array extra e => List.replicate (extra + 1) '[' ++ e.chars name

def FieldType.chars : FieldType C → List Char
  | .base b => [b.letter]
  | .ref r => r.chars name

def MethodType.chars (m : MethodType C) : List Char :=
  '(' :: (m.parameters.flatMap (FieldType.chars name) ++ ')' ::
    match m.result with
    | none => ['V']
    | some t => t.chars name)

def RefType.render (r : RefType C) : String := String.ofList (r.chars name)

def FieldType.render (t : FieldType C) : String := String.ofList (t.chars name)

def MethodType.render (m : MethodType C) : String := String.ofList (m.chars name)

end Render

/-! ### Reading -/

/-- Why a text is not a descriptor. -/
inductive DescriptorError where
  | missingType (text : String)
  | missingSemicolon (text : String)
  | badName (error : NameError)
  | badLetter (c : Char)
  | trailing (rest : String)
  | missingParenthesis
deriving DecidableEq, Repr

def DescriptorError.message : DescriptorError → String
  | missingType text => s!"Missing field type in '{text}'"
  | missingSemicolon text => s!"Missing ';' after '{text}'"
  | badName error => error.message
  | badLetter c => s!"Invalid field type character '{c}'"
  | trailing rest => s!"Unexpected '{rest}' after field type"
  | missingParenthesis => "Method descriptor must start with '('"

/-- Reads the element that an array type ends in, or a type without dimensions. The whole descriptor
is given for the error message. -/
def Element.read (whole : List Char) :
    List Char → Except DescriptorError (Element BinaryName × List Char)
  | [] => .error (.missingType (String.ofList whole))
  | 'L' :: body =>
    match body.dropWhile (· != ';') with
    | [] => .error (.missingSemicolon (String.ofList ('L' :: body)))
    | _ :: rest =>
      match BinaryName.ofString (String.ofList (body.takeWhile (· != ';'))) with
      | .ok c => .ok (.cls c, rest)
      | .error e => .error (.badName e)
  | c :: rest =>
    match BaseType.ofLetter? c with
    | some b => .ok (.base b, rest)
    | none => .error (.badLetter c)

/-- Reads a type off the front of a text and gives what follows it. -/
def FieldType.read (text : List Char) : Except DescriptorError (FieldType BinaryName × List Char) :=
  match Element.read text (text.dropWhile (· == '[')) with
  | .ok (e, rest) => .ok (ofElement (text.takeWhile (· == '[')).length e, rest)
  | .error e => .error e

theorem Element.length_read_lt {whole text rest : List Char} {e : Element BinaryName}
    (h : Element.read whole text = .ok (e, rest)) : rest.length < text.length := by
  revert h
  fun_cases Element.read whole text with
  | case1 => simp
  | case2 => simp
  | case3 body _ tail hdrop c _ =>
    simp only [Except.ok.injEq, Prod.mk.injEq, and_imp]
    rintro - rfl
    have := (List.dropWhile_suffix (l := body) (· != ';')).length_le
    rw [hdrop] at this
    simp only [List.length_cons] at *
    omega
  | case4 => simp
  | case5 => simp_all
  | case6 => simp

theorem FieldType.length_read_lt {text rest : List Char} {t : FieldType BinaryName}
    (h : FieldType.read text = .ok (t, rest)) : rest.length < text.length := by
  unfold FieldType.read at h
  split at h
  · rename_i e tail he
    simp only [Except.ok.injEq, Prod.mk.injEq] at h
    have hlt := Element.length_read_lt he
    have hle := (List.dropWhile_suffix (l := text) (· == '[')).length_le
    rw [h.2] at hlt
    omega
  · simp at h

/-- A text that is exactly one type. -/
def FieldType.ofChars (text : List Char) : Except DescriptorError (FieldType BinaryName) :=
  match FieldType.read text with
  | .ok (t, []) => .ok t
  | .ok (_, rest) => .error (.trailing (String.ofList rest))
  | .error e => .error e

/-- Reads types up to a closing parenthesis and gives what follows it. -/
def MethodType.readParameters (text : List Char) :
    Except DescriptorError (List (FieldType BinaryName) × List Char) :=
  if text.head? = some ')' then .ok ([], text.tail)
  else
    match h : FieldType.read text with
    | .error e => .error e
    | .ok (t, rest) =>
      have := FieldType.length_read_lt h
      match readParameters rest with
      | .error e => .error e
      | .ok (ts, after) => .ok (t :: ts, after)
termination_by text.length

def MethodType.ofChars : List Char → Except DescriptorError (MethodType BinaryName)
  | '(' :: text =>
    match readParameters text with
    | .error e => .error e
    | .ok (parameters, ['V']) => .ok ⟨parameters, none⟩
    | .ok (parameters, rest) =>
      match FieldType.ofChars rest with
      | .ok t => .ok ⟨parameters, some t⟩
      | .error e => .error e
  | _ => .error .missingParenthesis

def FieldType.ofDescriptor (text : String) : Except DescriptorError (FieldType BinaryName) :=
  FieldType.ofChars text.toList

def MethodType.ofDescriptor (text : String) : Except DescriptorError (MethodType BinaryName) :=
  MethodType.ofChars text.toList

end JvmLowering
