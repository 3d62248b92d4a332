import JvmLowering.Body.Basic
import JvmLowering.Event
import JvmLowering.Settings
import JvmLowering.Typing.Propagation

/-!
# Flow types of values

The flow type of each value of a body. Arguments have the types of the signature, and most
operations fix the type of their output; casts, array reads, loads and stores go by their first
input, and a phi is the join of its operands.
-/

namespace JvmLowering

/-! ### Types that are known at once -/

namespace Body

/-- The type of an argument: the class of the method for the receiver, the type of the parameter, or
else the declared type. -/
def argumentType (g : Hierarchy) (b : Body) (index : Nat) (v : ValueId) : FlowType :=
  let m := g.method b.method
  let ofParameter (position : Nat) : FlowType :=
    match m.type.parameters[position]? with
    | some t => .ofField true t
    | none => .ofDeclared true (b.value v).type
  if m.isStatic then ofParameter index
  else
    match index with
    | 0 => .ref (.object m.owner) false
    | position + 1 => ofParameter position

end Body

/-- The type of an output that hangs on the operation alone. -/
def Operation.ownType (declared : DeclaredType ClassId) : Operation → FlowType
  | constant .null => .null
  | newInstance c | moveException c => .ref (.object c) false
  | newArray t => .ref t false
  | constant (.string _) | constant (.cls _) => .ofDeclared false declared
  | _ => .ofDeclared true declared

/-! ### The flow -/

namespace FlowTyping

/-- The type of the first input. -/
def firstInput (types : ValueId → FlowType) (insn : Instruction) : FlowType :=
  (insn.inputs.head?.map types).getD .bottom

/-- What an instruction gives its output. -/
def outputType (g : Hierarchy) (b : Body) (types : ValueId → FlowType) (insn : Instruction)
    (v : ValueId) : FlowType :=
  match insn.operation with
  | .argument index => b.argumentType g index v
  | .checkCast t => (firstInput types insn).checkCast g t
  | .arrayGet => (firstInput types insn).arrayGet
  | .load | .store => firstInput types insn
  | operation => operation.ownType (b.value v).type

def candidate (g : Hierarchy) (b : Body) (types : ValueId → FlowType) (v : ValueId) : FlowType :=
  match (b.value v).origin with
  | .phi _ operands => .joinAll g (operands.map types)
  | _ =>
    match b.definition? v with
    | some insn => outputType g b types insn v
    | none => .bottom

/-- The output of an instruction whose type hangs on its inputs. -/
def inferredOutput? (insn : Instruction) : Option ValueId :=
  if insn.operation.isArgument || insn.operation.hasOwnType then none else insn.output

/-- The outputs that go by the value, then the phis that merge it. -/
def dependents (b : Body) (v : ValueId) : List ValueId :=
  let users := (b.value v).users
  users.instructions.toList.filterMap (fun i => inferredOutput? (b.instruction i)) ++
    users.phis.toList

/-- A phi must not move down. -/
def refuse (g : Hierarchy) (settings : Settings) (b : Body) (v : ValueId)
    (old candidate : FlowType) : Option Error :=
  if (b.value v).isPhi && settings.checkMonotone && old.join g candidate ≠ candidate then
    some (.nonMonotoneUpdate v old candidate)
  else none

def flow (g : Hierarchy) (settings : Settings) (b : Body) : Flow where
  bound := b.values.size
  candidate := candidate g b
  dependents := dependents b
  refuse := refuse g settings b

/-! ### Analyses -/

open Propagation

/-- Types an output if it is known at once, and otherwise puts it on the worklist. -/
def seedInstruction (g : Hierarchy) (b : Body) (s : State) (insn : Instruction) : State :=
  match insn.output with
  | none => s
  | some v =>
    match insn.operation with
    | .argument index => { s with types := s.types.set v (b.argumentType g index v) }
    | operation =>
      if (b.value v).isPhi then s
      else if operation.hasOwnType then
        { s with types := s.types.set v (operation.ownType (b.value v).type) }
      else { s with work := (s.work.push v).2 }

def seedBlock (g : Hierarchy) (b : Body) (s : State) (k : BlockId) : State :=
  let s := (b.instructionsOf k).foldl (seedInstruction g b) s
  { s with work := s.work.pushAll (b.block k).phis }

/-- Block by block the types that are known at once, and a worklist of all other outputs and the
phis. -/
def seed (g : Hierarchy) (b : Body) : State := b.blocks.indices.foldl (seedBlock g b) {}

def moveEvents (s : State) : List Event :=
  s.moves.reverse.map fun m => .typeMoved m.value m.old m.new

end FlowTyping

/-- The flow types that an analysis has found. -/
structure FlowTyping where
  types : TypeMap := {}

namespace FlowTyping

def typeOf (t : FlowTyping) (v : ValueId) : FlowType := t.types.get v

/-- How many values have a type. -/
def size (t : FlowTyping) : Nat := t.types.size

def infer (g : Hierarchy) (settings : Settings) (b : Body) : Reported (Except Error FlowTyping) :=
  match Propagation.run g (flow g settings b) (seed g b) with
  | (s, none) => ⟨.ok ⟨s.types⟩, moveEvents s ++ [.typesSettled b.method s.steps s.types.size]⟩
  | (s, some e) => ⟨.error e, moveEvents s⟩

/-- Looks again at the given values, which may be of another body. What has changed before an error
stays. -/
def widen (t : FlowTyping) (g : Hierarchy) (settings : Settings) (b : Body)
    (values : List ValueId) :
    Reported (FlowTyping × Option Error) :=
  match Propagation.run g
      (flow g settings b) { work := Worklist.empty.pushAll values, types := t.types } with
  | (s, none) => ⟨(⟨s.types⟩, none), moveEvents s ++ [.typesWidened b.method s.steps]⟩
  | (s, some e) => ⟨(⟨s.types⟩, some e), moveEvents s⟩

end FlowTyping

/-- The class to look a virtual method up in: that of the receiver where it is known to be below the
declared one. -/
def Body.receiverClass (g : Hierarchy) (b : Body) (types : ValueId → FlowType) (i : InsnId) :
    Except Error (Option ClassId) :=
  if i ∉ b.instructions then .error (.noSuchInstruction i)
  else
    let insn := b.instruction i
    match insn.operation with
    | .invoke m _ =>
      if (g.method m).isStatic then .ok none
      else
        let declared := (g.method m).owner
        match insn.inputs with
        | [] => .ok none
        | receiver :: _ =>
          match types receiver with
          | .ref (.object c) _ => .ok (some (if g.isSubclass c declared then c else declared))
          | _ => .ok (some declared)
    | _ => .ok none

end JvmLowering
