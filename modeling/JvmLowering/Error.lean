import JvmLowering.FlowType.Basic

/-!
# Errors

What can go wrong while the body of a method is built, analysed or lowered.
-/

namespace JvmLowering

inductive Error where
  /-- The join of a value, or of a list of types, is not a reference. -/
  | nonReferenceJoin (value : Option ValueId) (joined : FlowType)
  | primitiveQuery (value : ValueId)
  | unexpectedStackValue (insn : InsnId) (value : ValueId)
  | missingPhiOperand (phi : ValueId) (expected found : Nat)
  | notAPhi (value : ValueId)
  | criticalEdge (source target : BlockId)
  | nonMonotoneUpdate (value : ValueId) (old candidate : FlowType)
  | noSuchValue (value : ValueId)
  | noSuchInstruction (insn : InsnId)
  | noSuchBlock (block : BlockId)
  /-- Local variable indices end at 65535. -/
  | tooManyLocals
deriving DecidableEq, Repr

namespace Error

/-- A caller named something that is not there, or asked for too much. -/
def isMisuse : Error → Bool
  | noSuchValue _ | noSuchInstruction _ | noSuchBlock _ | tooManyLocals => true
  | _ => false

def message (g : Hierarchy) : Error → String
  | nonReferenceJoin (some v) joined =>
    "join for " ++ v.render ++ " is not a reference type: " ++ joined.render g
  | nonReferenceJoin none joined =>
    "join of class types is not a reference type: " ++ joined.render g
  | primitiveQuery v => v.render ++ " is primitive and has no verification class"
  | unexpectedStackValue i v => i.render ++ " already uses stack value " ++ v.render
  | missingPhiOperand phi expected found =>
    s!"phi {phi.render} has {found} operands but its block has {expected} predecessors"
  | notAPhi v => v.render ++ " is not a phi"
  | criticalEdge a b => "phi moves needed on critical edge " ++ a.render ++ " -> " ++ b.render
  | nonMonotoneUpdate v old candidate =>
    "type of " ++ v.render ++ " would move from " ++ old.render g ++ " down to " ++
      candidate.render g
  | noSuchValue v => "there is no " ++ v.render
  | noSuchInstruction i => "there is no " ++ i.render
  | noSuchBlock b => "there is no " ++ b.render
  | tooManyLocals => "too many local variables"

end Error

end JvmLowering
