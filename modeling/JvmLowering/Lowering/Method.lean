import JvmLowering.Lowering.EntryFrames
import JvmLowering.Lowering.PhiMoves

/-!
# Lowering a method

The analyses, the stack code, the phi moves and the frames, one after the other.
-/

namespace JvmLowering

/-- A lowered body with what was learnt on the way. -/
structure LoweredMethod where
  body : Body
  /-- The flow types before lowering. -/
  types : FlowTyping
  verifier : VerifierTyping
  maxStack : Nat
  /-- Empty if frames were not asked for. -/
  frames : List (BlockId × Frame ClassId)

/-- Why a method could not be lowered. -/
structure LoweringError where
  method : MethodId
  cause : Error

def LoweringError.message (g : Hierarchy) (e : LoweringError) : String :=
  "Internal compiler error in " ++ g.methodText e.method ++ ": " ++ e.cause.message g

namespace Body

/-- The stack code of a body with its phis resolved, and the local variables as they are then. -/
def toStackCode (b : Body) (c : StackCoding) (a : Locals) : (Lowering × Locals) × Option Error :=
  match c.insertLoadsAndStores { body := b } with
  | (l, some e) => ((l, a), some e)
  | (l, none) => c.insertPhiMoves l a

def entryFrames (b : Body) (g : Hierarchy) (settings : Settings) (a : Locals) (t : VerifierTyping) :
    Reported (Except Error (List (BlockId × Frame ClassId))) :=
  if settings.frames then EntryFrames.compute g b a t else ⟨.ok [], []⟩

/-- All steps up to the first that fails. The local variables are given back either way. -/
def lowerSteps (b : Body) (g : Hierarchy) (settings : Settings) (a : Locals) :
    Reported (Locals × Except Error LoweredMethod) :=
  let inferred := FlowTyping.infer g settings b
  match inferred.result with
  | .error e => ⟨(a, .error e), inferred.events⟩
  | .ok types =>
    let verified := VerifierTyping.compute g b
    let events := inferred.events ++ verified.events
    match verified.result with
    | .error e => ⟨(a, .error e), events⟩
    | .ok verifier =>
      let coding : StackCoding := ⟨settings, if settings.preciseStack then some verifier else none⟩
      match b.toStackCode coding a with
      | ((l, a), some e) => ⟨(a, .error e), events ++ l.reports.reverse⟩
      | ((l, a), none) =>
        let framed := l.body.entryFrames g settings a verifier
        let events := events ++ l.reports.reverse ++ framed.events
        match framed.result with
        | .error e => ⟨(a, .error e), events⟩
        | .ok frames => ⟨(a, .ok ⟨l.body, types, verifier, l.maxStack, frames⟩), events⟩

/-- Lowers a body to stack code. A failure names the method. -/
def lower (b : Body) (g : Hierarchy) (settings : Settings) (a : Locals) :
    Reported (Locals × Except LoweringError LoweredMethod) :=
  match b.lowerSteps g settings a with
  | ⟨(a, .ok lowered), events⟩ => ⟨(a, .ok lowered), events⟩
  | ⟨(a, .error e), events⟩ =>
    let failure := if e.isMisuse then [] else [.loweringFailed b.method e]
    ⟨(a, .error ⟨b.method, e⟩), events ++ failure⟩

end Body

end JvmLowering
