import JvmLowering.Typing.FlowTyping

/-!
# Types that the verifier sees

The type of each reference as the verifier will compute it: casts have their type, array reads that
of the declared array, and phis the join of their operands. Primitive values are not tracked.
-/

namespace JvmLowering

namespace VerifierTyping

def isTracked (b : Body) (v : ValueId) : Bool := (b.value v).type.isReference

/-- The type of an output that hangs on the instruction and on declared types alone. -/
def ownType (b : Body) (insn : Instruction) (v : ValueId) : FlowType :=
  let declared : FlowType := .ofDeclared true (b.value v).type
  match insn.operation with
  | .constant .null => .null
  | .checkCast t => .ref t true
  | .newInstance c | .moveException c => .ref (.object c) false
  | .newArray t => .ref t false
  | .arrayGet =>
    match insn.inputs.head?.bind fun array => (b.value array).type.refType? with
    | some t =>
      let element := FlowType.arrayGet (.ref t true)
      if element.isReference then element else declared
    | none => declared
  | _ => declared

def candidate (g : Hierarchy) (b : Body) (types : ValueId → FlowType) (v : ValueId) : FlowType :=
  match (b.value v).origin with
  | .phi _ operands => .joinAll g (operands.map types)
  | _ =>
    match b.definition? v with
    | none => .bottom
    | some insn =>
      match insn.operation with
      | .load | .store => FlowTyping.firstInput types insn
      | _ => .ofDeclared true (b.value v).type

/-- The tracked output of an instruction whose type hangs on its inputs. -/
def inferredOutput? (b : Body) (insn : Instruction) : Option ValueId :=
  if insn.operation.isArgument || insn.operation.hasOwnVerificationType then none
  else insn.output.filter (isTracked b)

def dependents (b : Body) (v : ValueId) : List ValueId :=
  let users := (b.value v).users
  users.instructions.toList.filterMap (fun i => inferredOutput? b (b.instruction i)) ++
    users.phis.toList.filter (isTracked b)

/-- A tracked value stays a reference. -/
def refuse (g : Hierarchy) (v : ValueId) (old candidate : FlowType) : Option Error :=
  let new := old.join g candidate
  if new.isReference || new = .bottom then none else some (.nonReferenceJoin (some v) new)

def flow (g : Hierarchy) (b : Body) : Flow where
  bound := b.values.size
  candidate := candidate g b
  dependents := dependents b
  refuse := refuse g

open Propagation

def seedInstruction (g : Hierarchy) (b : Body) (s : State) (insn : Instruction) : State :=
  match insn.output.filter (isTracked b) with
  | none => s
  | some v =>
    match insn.operation with
    | .argument index => { s with types := s.types.set v (b.argumentType g index v) }
    | operation =>
      if operation.hasOwnVerificationType then { s with types := s.types.set v (ownType b insn v) }
      else { s with work := (s.work.push v).2 }

def seedBlock (g : Hierarchy) (b : Body) (s : State) (k : BlockId) : State :=
  let s := (b.instructionsOf k).foldl (seedInstruction g b) s
  { s with work := s.work.pushAll ((b.block k).phis.filter (isTracked b)) }

def seed (g : Hierarchy) (b : Body) : State := b.blocks.indices.foldl (seedBlock g b) {}

/-- References that nothing has reached have their declared type. -/
def complete (b : Body) (types : TypeMap) : TypeMap :=
  b.values.indices.foldl
    (fun types v =>
      if isTracked b v && types.get v = .bottom then
        types.set v (.ofDeclared true (b.value v).type)
      else types)
    types

end VerifierTyping

/-- The types of references. -/
structure VerifierTyping where
  types : TypeMap := {}

namespace VerifierTyping

def compute (g : Hierarchy) (b : Body) : Reported (Except Error VerifierTyping) :=
  match Propagation.run g (flow g b) (seed g b) with
  | (s, none) => ⟨.ok ⟨complete b s.types⟩, [.verificationSettled b.method s.steps]⟩
  | (_, some e) => ⟨.error e, []⟩

def flowType? (t : VerifierTyping) (v : ValueId) : Option FlowType := t.types.get? v

def typeOf (t : VerifierTyping) (v : ValueId) : Except Error (VerificationType ClassId) :=
  match t.flowType? v with
  | none => .error (.primitiveQuery v)
  | some .null => .ok .null
  | some (.ref r _) => .ok (.object r)
  | some other => .error (.nonReferenceJoin (some v) other)

/-- The type of a merge of objects of the given types. -/
def joinTypes (g : Hierarchy) : List (RefType ClassId) → Except Error (RefType ClassId)
  | [t] => .ok t
  | ts =>
    let joined := FlowType.joinAll g (ts.map fun t => .ref t false)
    match joined.refType? with
    | some t => .ok t
    | none => .error (.nonReferenceJoin none joined)

end VerifierTyping

end JvmLowering
