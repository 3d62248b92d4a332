import JvmLowering.Body.Basic
import JvmLowering.Error
import JvmLowering.Settings

/-!
# Local variables

Which value sits in which local variable, and which values are live at the entry of a block. Local
variables have sixteen bit indices.
-/

namespace JvmLowering

structure Locals where
  slots : Std.TreeMap ValueId Nat := ∅
  live : Std.TreeMap BlockId (Std.TreeSet ValueId) := ∅
  /-- The first index that has not been handed out. -/
  next : Nat := 0

namespace Locals

/-- The largest index, and so the largest number of indices that can be handed out. -/
def limit : Nat := 65535

def empty : Locals := {}

def slot? (a : Locals) (v : ValueId) : Option Nat := a.slots[v]?

def setSlot (a : Locals) (v : ValueId) (slot : Nat) : Locals :=
  { a with slots := a.slots.insert v slot }

def liveAt (a : Locals) (k : BlockId) : List ValueId := (a.live.getD k ∅).toList

def addLive (a : Locals) (k : BlockId) (v : ValueId) : Locals :=
  { a with live := a.live.insert k ((a.live.getD k ∅).insert v) }

/-- Puts a value into the local variable of a given index. -/
def assign (a : Locals) (v : ValueId) (slot : Nat) : Except Error Locals :=
  if slot + 1 ≤ limit then .ok { a.setSlot v slot with next := max a.next (slot + 1) }
    else .error .tooManyLocals

/-- Hands out indices for a width, which counts as sixteen bits. -/
def fresh (a : Locals) (width : Nat) : Except Error (Nat × Locals) :=
  let next := a.next + width % (limit + 1)
  if next ≤ limit then .ok (a.next, { a with next }) else .error .tooManyLocals

/-- Puts a value where another one is, if that is in a local variable. -/
def coalesce (a : Locals) (v other : ValueId) : Bool × Locals :=
  match a.slot? other with
  | some slot => (true, a.setSlot v slot)
  | none => (false, a)

/-! ### A local variable for each value -/

/-- Gives a value a fresh local variable. -/
def place (b : Body) (a : Locals) (v : ValueId) : Except Error Locals := do
  let (slot, a) ← a.fresh (width (b.value v).type)
  return a.setSlot v slot

/-- The arguments of the entry block with their indices, in the order of these. -/
def entryArguments (b : Body) : List (Nat × ValueId) :=
  let arguments := (b.instructionsOf Body.entry).filterMap fun insn =>
    match insn.operation with
    | .argument index => insn.output.map (index, ·)
    | _ => none
  arguments.mergeSort fun (i, v) (j, w) => i < j || i = j && v.num ≤ w.num

def placeArgument (b : Body) (a : Locals) (v : ValueId) : Except Error Locals := do
  let a ← a.place b v
  return a.addLive Body.entry v

/-- Phis, and outputs that are read and are not pushed again as constants. -/
def needsSlot (settings : Settings) (b : Body) (v : ValueId) : Bool :=
  match (b.value v).origin with
  | .phi _ _ => true
  | .stack _ _ => false
  | .instruction i =>
    let operation := (b.instruction i).operation
    !(b.value v).users.isEmpty && !operation.isArgument &&
      !(operation.isConstant && settings.rematerialize)

def placeValue (settings : Settings) (b : Body) (a : Locals) (v : ValueId) : Except Error Locals :=
  if a.slot? v = none && needsSlot settings b v then a.place b v else .ok a

/-- The arguments in the first local variables, and one of its own for each other value that needs
one. -/
def naive (settings : Settings) (b : Body) : Except Error Locals := do
  if Body.entry ∉ b.blocks then throw (.noSuchBlock Body.entry)
  let a ← ((entryArguments b).map Prod.snd).foldlM (placeArgument b) empty
  b.values.indices.foldlM (placeValue settings b) a

end Locals

end JvmLowering
