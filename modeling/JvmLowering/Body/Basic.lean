import JvmLowering.Body.Operation
import JvmLowering.Table

/-!
# Method bodies

The body of a method as a graph of values. Values, instructions and blocks refer to each other by
index. A value is made by one instruction, merged at the entry of a block (a phi), or held on the
operand stack, and it knows who reads it.
-/

namespace JvmLowering

/-- A place on the operand stack. -/
structure StackSlot where
  /-- The total width of the entries below. -/
  height : Nat
  type : StackType ClassId
deriving DecidableEq, Repr

/-- Where a value comes from. -/
inductive Origin where
  | instruction (i : InsnId)
  /-- One operand for each predecessor of the block, in their order. -/
  | phi (block : BlockId) (operands : List ValueId)
  | stack (slot : StackSlot) (definition : Option InsnId)
deriving DecidableEq, Repr

/-- The readers of a value. -/
structure Users where
  instructions : Std.TreeSet InsnId := ∅
  phis : Std.TreeSet ValueId := ∅

structure Value where
  origin : Origin
  type : DeclaredType ClassId
  users : Users := {}

structure Instruction where
  operation : Operation
  /-- In the order in which they are pushed. -/
  inputs : List ValueId
  output : Option ValueId
  block : BlockId
  line : Option UInt32 := none

structure Block where
  instructions : List InsnId := []
  predecessors : List BlockId := []
  successors : List BlockId := []
  phis : List ValueId := []
  /-- Some instruction of the block can throw. -/
  throwing : Bool := false

structure Body where
  method : MethodId
  values : Table .value Value := {}
  instructions : Table .instruction Instruction := {}
  blocks : Table .block Block := {}

namespace Users

def isEmpty (u : Users) : Bool := u.instructions.isEmpty && u.phis.isEmpty

def size (u : Users) : Nat := u.instructions.size + u.phis.size

end Users

namespace Value

instance : Inhabited Value := ⟨⟨.stack ⟨0, .null⟩ none, .null, {}⟩⟩

def isPhi (v : Value) : Bool :=
  match v.origin with
  | .phi _ _ => true
  | _ => false

def isStack (v : Value) : Bool :=
  match v.origin with
  | .stack _ _ => true
  | _ => false

/-- The instruction that makes the value. -/
def definition? (v : Value) : Option InsnId :=
  match v.origin with
  | .instruction i => some i
  | .phi _ _ => none
  | .stack _ definition => definition

def operands (v : Value) : List ValueId :=
  match v.origin with
  | .phi _ operands => operands
  | _ => []

end Value

instance : Inhabited Instruction := ⟨⟨default, [], none, .first, none⟩⟩

instance : Inhabited Block := ⟨{}⟩

/-- The last instruction of a block. -/
def Block.exit? (b : Block) : Option InsnId := b.instructions.getLast?

namespace Body

/-- The entry block is the first one. -/
def entry : BlockId := .first

def value (b : Body) (v : ValueId) : Value := b.values.get v

def instruction (b : Body) (i : InsnId) : Instruction := b.instructions.get i

def block (b : Body) (k : BlockId) : Block := b.blocks.get k

/-- The instructions of a block, in order. -/
def instructionsOf (b : Body) (k : BlockId) : List Instruction :=
  (b.block k).instructions.map b.instruction

def definition? (b : Body) (v : ValueId) : Option Instruction :=
  (b.value v).definition?.map b.instruction

/-- The operands of a phi, and none of anything else. -/
def operands (b : Body) (v : ValueId) : List ValueId := (b.value v).operands

/-- Made by a constant instruction. -/
def isConstant (b : Body) (v : ValueId) : Bool := (b.definition? v).any (·.operation.isConstant)

/-- The exception that a block begins by catching. -/
def caught? (b : Body) (k : BlockId) : Option ClassId :=
  match (b.instructionsOf k).find? (!·.operation.isArgument) with
  | some ⟨.moveException c, _, _, _, _⟩ => some c
  | _ => none

def isHandler (b : Body) (k : BlockId) : Bool := (b.caught? k).isSome

end Body

end JvmLowering
