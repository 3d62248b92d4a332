import JvmLowering.Attempt
import JvmLowering.Body.Construction
import JvmLowering.Typing.VerifierTyping

/-!
# Stack code

Every instruction reads its inputs from the operand stack and leaves its output there. The inputs
are pushed right before it, in order, and the output is popped right after it: into its local
variable if anything reads it, and away if nothing does. Constants are pushed again at each use.
-/

namespace JvmLowering

/-- What decides how stack code is written. -/
structure StackCoding where
  settings : Settings
  /-- The types of references, where they are known. -/
  verifier? : Option VerifierTyping := none

/-- A body on its way to stack code. -/
structure Lowering where
  body : Body
  /-- The largest height of the operand stack so far. -/
  maxStack : Nat := 0
  /-- What has been reported, the newest first. -/
  reports : List Event := []

/-- The code being written for a block. -/
structure Emitter extends Lowering where
  stack : Slots (StackType ClassId) := {}
  /-- The instructions of the block so far. -/
  emitted : List InsnId := []

namespace Emitter

def report (e : Emitter) (event : Event) : Emitter := { e with reports := event :: e.reports }

/-- Places an instruction that is already there. -/
def place (e : Emitter) (i : InsnId) : Emitter := { e with emitted := e.emitted ++ [i] }

/-- Makes an instruction and places it. -/
def emit (e : Emitter) (insn : Instruction) : Emitter :=
  let (i, body) := e.body.pushInstruction insn
  place { e with body } i

/-- A new stack entry that stands for a value. -/
def pushEntry (e : Emitter) (v : ValueId) (type : StackType ClassId) : ValueId × Emitter :=
  let (height, stack) := e.stack.push type
  let (entry, body) := e.body.pushStackValue ⟨height, type⟩ (e.body.value v).type
  (entry, { e with body, stack, maxStack := max e.maxStack stack.extent })

def popEntry (e : Emitter) : Emitter := { e with stack := e.stack.pop }

/-- Drops one stack entry for each item of a list. -/
def popEntries {α : Type} (e : Emitter) (items : List α) : Emitter :=
  items.foldl (fun e _ => e.popEntry) e

end Emitter

namespace StackCoding

/-- What the verifier sees in a reference, if that is wanted and known. -/
def seenType? (c : StackCoding) (b : Body) (v : ValueId) : Option (VerificationType ClassId) :=
  if c.settings.preciseStack && (b.value v).type.isReference then
    c.verifier?.bind fun t => (t.typeOf v).toOption
  else none

/-- What the stack holds when a value is pushed. -/
def stackType (c : StackCoding) (b : Body) (v : ValueId) : StackType ClassId :=
  match (b.value v).origin with
  | .stack slot _ => slot.type
  | _ =>
    match c.seenType? b v with
    | some (.object r) => .object r
    | some .null => .null
    | _ => .ofDeclared (b.value v).type

/-- The constant to push in place of a value. -/
def constant? (c : StackCoding) (b : Body) (v : ValueId) : Option Constant :=
  match b.definition? v with
  | some ⟨.constant constant, _, _, _, _⟩ =>
    if c.settings.rematerialize || (b.value v).isStack then some constant else none
  | _ => none

/-- Pushes a value, as a constant or from its local variable. -/
def pushOperand (c : StackCoding) (k : BlockId) (line : Option UInt32) (e : Emitter) (v : ValueId) :
    ValueId × Emitter :=
  let (entry, e) := e.pushEntry v (c.stackType e.body v)
  let e :=
    match c.constant? e.body v with
    | some constant =>
      (e.report (.constantPushed constant v)).emit ⟨.constant constant, [], some entry, k, line⟩
    | none => (e.report (.loaded v)).emit ⟨.load, [v], some entry, k, line⟩
  (entry, e)

/-- Pushes an input and makes the instruction read it from the stack. Only constants may be there
already. -/
def loadInput (c : StackCoding) (k : BlockId) (i : InsnId) (line : Option UInt32) (e : Emitter)
    (input : ValueId × Nat) :
    Emitter × Option Error :=
  let (v, position) := input
  if (e.body.value v).isStack && !e.body.isConstant v then (e, some (.unexpectedStackValue i v))
  else
    let (entry, e) := c.pushOperand k line e v
    ({ e with body := e.body.replaceInput i position entry }, none)

/-- Leaves the output on the stack and pops it from there. -/
def storeOutput (c : StackCoding) (k : BlockId) (i : InsnId) (line : Option UInt32) (e : Emitter)
    (v : ValueId) : Emitter :=
  let (entry, e) := e.pushEntry v (c.stackType e.body v)
  let e := ({ e with body := e.body.replaceOutput i entry } : Emitter).place i
  let e :=
    if (e.body.value v).users.isEmpty then
      (e.emit ⟨.pop, [entry], none, k, line⟩).report (.popped v i)
    else (e.emit ⟨.store, [entry], some v, k, line⟩).report (.stored v i)
  e.popEntry

/-- The instruction only makes a constant that is pushed where it is used. -/
def isDropped (c : StackCoding) (b : Body) (insn : Instruction) : Bool :=
  insn.operation.isConstant &&
    (c.settings.rematerialize || insn.output.any fun v => (b.value v).isStack)

def convert (c : StackCoding) (k : BlockId) (e : Emitter) (i : InsnId) : Emitter × Option Error :=
  let insn := e.body.instruction i
  if insn.operation.isArgument then (e.place i, none)
  else if c.isDropped e.body insn then (e.report (.constantDropped i), none)
  else
    match attemptAll (c.loadInput k i insn.line) e insn.inputs.zipIdx with
    | (e, some error) => (e, some error)
    | (e, none) =>
      let e := e.popEntries insn.inputs
      match insn.output with
      | none => (e.place i, none)
      | some v =>
        if (e.body.value v).isStack then (e, some (.unexpectedStackValue i v))
        else (c.storeOutput k i insn.line e v, none)

/-- Converts a block. After an error it is left without instructions. -/
def convertBlock (c : StackCoding) (l : Lowering) (k : BlockId) : Lowering × Option Error :=
  let start : Emitter := { l with body := l.body.setInstructions k [] }
  match attemptAll (c.convert k) start (l.body.block k).instructions with
  | (e, some error) => (e.toLowering, some error)
  | (e, none) => ({ e.toLowering with body := e.body.setInstructions k e.emitted }, none)

/-- Turns a body into stack code, apart from its phis. -/
def insertLoadsAndStores (c : StackCoding) (l : Lowering) : Lowering × Option Error :=
  match attemptAll c.convertBlock l l.body.blocks.indices with
  | (l, some error) => (l, some error)
  | (l, none) => ({ l with reports := .stackMeasured l.body.method l.maxStack :: l.reports }, none)

end StackCoding

end JvmLowering
