import JvmLowering.Body.Constant
import JvmLowering.Error

/-!
# Events

What the analyses and the lowering report while they work.
-/

namespace JvmLowering

inductive Level where
  | trace
  | debug
  | error
deriving DecidableEq, Repr

def Level.name : Level → String
  | trace => "TRACE"
  | debug => "DEBUG"
  | error => "ERROR"

inductive Event where
  | typeMoved (value : ValueId) (old new : FlowType)
  | typesSettled (method : MethodId) (steps typed : Nat)
  | typesWidened (method : MethodId) (steps : Nat)
  | verificationSettled (method : MethodId) (steps : Nat)
  | constantDropped (insn : InsnId)
  | constantPushed (constant : Constant) (value : ValueId)
  | loaded (value : ValueId)
  | stored (value : ValueId) (insn : InsnId)
  | popped (value : ValueId) (insn : InsnId)
  | phiMoved (phi operand : ValueId) (block : BlockId)
  | stackMeasured (method : MethodId) (height : Nat)
  | localsOverlap (value : ValueId) (block : BlockId)
  | loweringFailed (method : MethodId) (error : Error)
deriving DecidableEq

namespace Event

def level : Event → Level
  | typesSettled _ _ _ | typesWidened _ _ | verificationSettled _ _ | stackMeasured _ _ => .debug
  | loweringFailed _ _ => .error
  | _ => .trace

def message (g : Hierarchy) : Event → String
  | typeMoved v old new => v.render ++ ": " ++ old.render g ++ " -> " ++ new.render g
  | typesSettled m steps typed =>
    s!"Type analysis of {g.methodText m} reached a fixed point after " ++
      s!"{steps} steps ({typed} typed values)"
  | typesWidened m steps => s!"Widening of {g.methodText m} took {steps} steps"
  | verificationSettled m steps =>
    s!"Verification types of {g.methodText m} reached a fixed point after {steps} steps"
  | constantDropped i => s!"Dropping {i.render} (constant pushed at each use)"
  | constantPushed c v => s!"Push constant {c.render g} for {v.render}"
  | loaded v => s!"Load {v.render}"
  | stored v i => s!"Store {v.render} after {i.render}"
  | popped v i => s!"Pop {v.render} after {i.render}"
  | phiMoved phi operand k => s!"Phi move {phi.render} <- {operand.render} in {k.render}"
  | stackMeasured m height => s!"Loads and stores of {g.methodText m} need a stack of {height}"
  | localsOverlap v k => s!"{v.render} overlaps another local at entry of {k.render}"
  | loweringFailed m e => s!"Failed to lower {g.methodText m}: {e.message g}"

end Event

/-- A result and what was reported on the way to it. -/
structure Reported (α : Type) where
  result : α
  events : List Event := []

end JvmLowering
