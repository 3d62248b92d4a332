import JvmLowering.AccessFlags
import JvmLowering.JvmType.Descriptor
import JvmLowering.Table

/-!
# The class hierarchy

The classes and methods that a program mentions. A hierarchy begins with `java/lang/Object` and only
grows: classes are added below classes that are already there, and a class or method keeps its
index. Interfaces can be added to a class later, so interface lists may form cycles.
-/

namespace JvmLowering

structure ClassData where
  name : BinaryName
  /-- A class other than `java/lang/Object` may also lack one. -/
  superclass : Option ClassId
  interfaces : List ClassId
  flags : ClassFlags
  methods : List MethodId := []

structure MethodData where
  owner : ClassId
  name : UnqualifiedName
  type : MethodType ClassId
  flags : MethodFlags

namespace ClassData

/-- The class that every hierarchy begins with. -/
def object : ClassData :=
  ⟨.object, none, [], .ofList [ClassFlag.isPublic, ClassFlag.isSuper], []⟩

instance : Inhabited ClassData := ⟨object⟩

def isInterface (d : ClassData) : Bool := d.flags.has ClassFlag.isInterface

end ClassData

namespace MethodData

instance : Inhabited MethodData := ⟨⟨.first, .init, ⟨[], none⟩, .ofList []⟩⟩

def isStatic (m : MethodData) : Bool := m.flags.has MethodFlag.isStatic

/-- The parameters, and the receiver of an instance method. -/
def argumentCount (m : MethodData) : Nat := m.type.parameters.length + if m.isStatic then 0 else 1

/-- Two methods of one class with equal name, type and staticness are the same method. -/
def sameKey (m n : MethodData) : Bool :=
  m.name = n.name && m.type = n.type && m.isStatic = n.isStatic

end MethodData

/-- Why a hierarchy refuses a class or a descriptor. -/
inductive HierarchyError where
  | missingClass (name : BinaryName)
  | duplicateClass (name : BinaryName)
  | invalidDescriptor (text : String) (error : DescriptorError)
deriving DecidableEq

structure Hierarchy where
  classes : Table .cls ClassData
  methods : Table .method MethodData

namespace Hierarchy

/-- The hierarchy of `java/lang/Object` alone. -/
def initial : Hierarchy := ⟨({} : Table .cls ClassData).push .object, {}⟩

/-- The index of `java/lang/Object`. -/
def object : ClassId := .first

def cls (g : Hierarchy) (c : ClassId) : ClassData := g.classes.get c

def method (g : Hierarchy) (m : MethodId) : MethodData := g.methods.get m

def className (g : Hierarchy) (c : ClassId) : String := (g.cls c).name.text

def lookup (g : Hierarchy) (name : BinaryName) : Option ClassId :=
  g.classes.find? fun d => d.name = name

def resolve (g : Hierarchy) (name : BinaryName) : Except HierarchyError ClassId :=
  match g.lookup name with
  | some c => .ok c
  | none => .error (.missingClass name)

/-! ### Growing -/

def addClass (g : Hierarchy) (d : ClassData) : Except HierarchyError (ClassId × Hierarchy) :=
  match g.lookup d.name with
  | some _ => .error (.duplicateClass d.name)
  | none => .ok (g.classes.next, { g with classes := g.classes.push d })

def addInterface (g : Hierarchy) (c i : ClassId) : Hierarchy :=
  { g with classes := g.classes.modify c fun d => { d with interfaces := d.interfaces ++ [i] } }

/-- The method of the same key that its class already lists, or else the new one. -/
def addMethod (g : Hierarchy) (m : MethodData) : MethodId × Hierarchy :=
  match (g.cls m.owner).methods.find? fun id => (g.method id).sameKey m with
  | some id => (id, g)
  | none =>
    let id := g.methods.next
    (id, ⟨g.classes.modify m.owner fun d => { d with methods := d.methods ++ [id] },
      g.methods.push m⟩)

/-! ### Types -/

def fieldType (g : Hierarchy) (text : String) : Except HierarchyError (FieldType ClassId) :=
  match FieldType.ofDescriptor text with
  | .ok t => t.traverse g.resolve
  | .error e => .error (.invalidDescriptor text e)

def methodType (g : Hierarchy) (text : String) : Except HierarchyError (MethodType ClassId) :=
  match MethodType.ofDescriptor text with
  | .ok m => m.traverse g.resolve
  | .error e => .error (.invalidDescriptor text e)

/-- A method is written as its class, its name and its type. -/
def methodText (g : Hierarchy) (m : MethodId) : String :=
  let d := g.method m
  g.className d.owner ++ "." ++ d.name.text ++ ":" ++ d.type.render g.className

end Hierarchy

end JvmLowering
