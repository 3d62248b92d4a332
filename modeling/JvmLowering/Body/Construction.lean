import JvmLowering.Body.Basic
import JvmLowering.Error

/-!
# Building and changing bodies

Bodies are built block by block and instruction by instruction. Every change keeps the readers of
each value up to date.
-/

namespace JvmLowering

namespace Value

/-- Makes an instruction the maker of the value; a phi stays a phi. -/
def defineBy (i : InsnId) (v : Value) : Value :=
  match v.origin with
  | .instruction _ => { v with origin := .instruction i }
  | .phi _ _ => v
  | .stack slot _ => { v with origin := .stack slot (some i) }

def addReader (i : InsnId) (v : Value) : Value :=
  { v with users := { v.users with instructions := v.users.instructions.insert i } }

def removeReader (i : InsnId) (v : Value) : Value :=
  { v with users := { v.users with instructions := v.users.instructions.erase i } }

def addPhiReader (phi : ValueId) (v : Value) : Value :=
  { v with users := { v.users with phis := v.users.phis.insert phi } }

def removePhiReader (phi : ValueId) (v : Value) : Value :=
  { v with users := { v.users with phis := v.users.phis.erase phi } }

end Value

namespace Body

/-! ### Looking up -/

def findValue (b : Body) (v : ValueId) : Except Error Value :=
  if v ∈ b.values then .ok (b.value v) else .error (.noSuchValue v)

def findBlock (b : Body) (k : BlockId) : Except Error Block :=
  if k ∈ b.blocks then .ok (b.block k) else .error (.noSuchBlock k)

/-! ### Parts of changes -/

def modifyValue (b : Body) (v : ValueId) (f : Value → Value) : Body :=
  { b with values := b.values.modify v f }

def modifyBlock (b : Body) (k : BlockId) (f : Block → Block) : Body :=
  { b with blocks := b.blocks.modify k f }

def modifyInstruction (b : Body) (i : InsnId) (f : Instruction → Instruction) : Body :=
  { b with instructions := b.instructions.modify i f }

def pushValue (b : Body) (v : Value) : ValueId × Body :=
  (b.values.next, { b with values := b.values.push v })

/-- Makes an instruction without placing it in its block. -/
def pushInstruction (b : Body) (insn : Instruction) : InsnId × Body :=
  let i := b.instructions.next
  let values := insn.inputs.foldl (fun values v => values.modify v (·.addReader i)) b.values
  let values := insn.output.elim values fun v => values.modify v (·.defineBy i)
  let out := insn.output.map fun v => (values.get v).type
  let blocks :=
    if insn.operation.canThrow out then b.blocks.modify insn.block fun k =>
      { k with throwing := true } else b.blocks
  (i, { b with values, blocks, instructions := b.instructions.push insn })

/-! ### Building -/

def addBlock (b : Body) : BlockId × Body := (b.blocks.next, { b with blocks := b.blocks.push {} })

/-- Adds an edge; operands that phis get later are for the predecessors in the order in which these
were added. -/
def addEdge (b : Body) (source target : BlockId) : Except Error Body :=
  if target ∉ b.blocks then .error (.noSuchBlock target)
  else if source ∉ b.blocks then .error (.noSuchBlock source)
  else
    let b := b.modifyBlock target fun k => { k with predecessors := k.predecessors ++ [source] }
    .ok (b.modifyBlock source fun k => { k with successors := k.successors ++ [target] })

/-- Adds an instruction at the end of a block, with an output if there is a type for it. The
instruction may read its own output. -/
def append (b : Body) (k : BlockId) (operation : Operation) (inputs : List ValueId)
    (out : Option (DeclaredType ClassId)) : Except Error (InsnId × Body) :=
  let output := out.map fun _ => b.values.next
  let b := out.elim b fun t => (b.pushValue ⟨.instruction b.instructions.next, t, {}⟩).2
  match inputs.find? (· ∉ b.values) with
  | some v => .error (.noSuchValue v)
  | none =>
    if k ∉ b.blocks then .error (.noSuchBlock k)
    else
      let (i, b) := b.pushInstruction { operation, inputs, output, block := k }
      .ok (i, b.modifyBlock k fun k => { k with instructions := k.instructions ++ [i] })

/-- Adds a phi without operands. -/
def addPhi (b : Body) (k : BlockId) (type : DeclaredType ClassId) : Except Error (ValueId × Body) :=
  if k ∉ b.blocks then .error (.noSuchBlock k)
  else
    let (v, b) := b.pushValue ⟨.phi k [], type, {}⟩
    .ok (v, b.modifyBlock k fun k => { k with phis := k.phis ++ [v] })

/-- Gives a phi the operand for the next predecessor. -/
def addPhiOperand (b : Body) (phi operand : ValueId) : Except Error Body :=
  if phi ∉ b.values then .error (.noSuchValue phi)
  else
    match (b.value phi).origin with
    | .phi k operands =>
      if operand ∉ b.values then .error (.noSuchValue operand)
      else
        let b := b.modifyValue phi fun v => { v with origin := .phi k (operands ++ [operand]) }
        .ok (b.modifyValue operand (·.addPhiReader phi))
    | _ => .error (.notAPhi phi)

def setLine (b : Body) (i : InsnId) (line : UInt32) : Except Error Body :=
  if i ∉ b.instructions then .error (.noSuchInstruction i)
  else .ok (b.modifyInstruction i fun insn => { insn with line := some line })

/-! ### Changing -/

/-- A new entry of the operand stack, which nothing makes yet. -/
def pushStackValue (b : Body) (slot : StackSlot) (type : DeclaredType ClassId) : ValueId × Body :=
  b.pushValue ⟨.stack slot none, type, {}⟩

/-- Replaces the input at a position. -/
def replaceInput (b : Body) (i : InsnId) (position : Nat) (new : ValueId) : Body :=
  match (b.instruction i).inputs[position]? with
  | none => b
  | some old =>
    let inputs := (b.instruction i).inputs.set position new
    let b := b.modifyInstruction i fun insn => { insn with inputs }
    let b := if old ∈ inputs then b else b.modifyValue old (·.removeReader i)
    b.modifyValue new (·.addReader i)

/-- Replaces the output; nothing makes the old one until it is given to another instruction. -/
def replaceOutput (b : Body) (i : InsnId) (new : ValueId) : Body :=
  let b := b.modifyInstruction i fun insn => { insn with output := some new }
  b.modifyValue new (·.defineBy i)

def setInstructions (b : Body) (k : BlockId) (instructions : List InsnId) : Body :=
  b.modifyBlock k fun k => { k with instructions }

end Body

end JvmLowering
