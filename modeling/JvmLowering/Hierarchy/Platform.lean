import JvmLowering.Attempt
import JvmLowering.Hierarchy.Basic

/-!
# Classes of the platform

The part of the standard library that every program may mention.
-/

namespace JvmLowering

/-- A class of the platform, above which stand other classes of the platform. -/
structure PlatformClass where
  name : BinaryName
  superclass : BinaryName := .object
  flags : List Flag
  interfaces : List BinaryName := []

namespace PlatformClass

open ClassFlag

def interfaceFlags : List Flag := [isPublic, isInterface, isAbstract]

/-- The classes beside `java/lang/Object`, each after those that it mentions. -/
def all : List PlatformClass :=
  [{ name := .serializable, flags := interfaceFlags },
   { name := .cloneable, flags := interfaceFlags },
   { name := .comparable, flags := interfaceFlags },
   { name := .charSequence, flags := interfaceFlags },
   { name := .string, flags := [isPublic, isFinal, isSuper],
     interfaces := [.serializable, .comparable, .charSequence] },
   { name := .cls, flags := [isPublic, isFinal, isSuper], interfaces := [.serializable] },
   { name := .number, flags := [isPublic, isAbstract, isSuper], interfaces := [.serializable] },
   { name := .integer, superclass := .number, flags := [isPublic, isFinal, isSuper],
     interfaces := [.comparable] },
   { name := .long, superclass := .number, flags := [isPublic, isFinal, isSuper],
     interfaces := [.comparable] },
   { name := .throwable, flags := [isPublic, isSuper], interfaces := [.serializable] },
   { name := .error, superclass := .throwable, flags := [isPublic, isSuper] },
   { name := .exception, superclass := .throwable, flags := [isPublic, isSuper] },
   { name := .runtimeException, superclass := .exception, flags := [isPublic, isSuper] }]

end PlatformClass

namespace Hierarchy

def addPlatformClass (g : Hierarchy) (p : PlatformClass) : Except HierarchyError Hierarchy := do
  let superclass ← g.resolve p.superclass
  let interfaces ← p.interfaces.mapM g.resolve
  let (_, g) ← g.addClass ⟨p.name, some superclass, interfaces, .ofList p.flags, []⟩
  return g

def tryPlatformClass (g : Hierarchy) (p : PlatformClass) : Hierarchy × Option HierarchyError :=
  match g.addPlatformClass p with
  | .ok g => (g, none)
  | .error e => (g, some e)

/-- Adds the platform. Where one of its classes is there already, the classes before it have been
added. -/
def addPlatform (g : Hierarchy) : Hierarchy × Option HierarchyError :=
  attemptAll tryPlatformClass g PlatformClass.all

end Hierarchy

end JvmLowering
