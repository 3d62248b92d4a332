import JvmLowering.Lowering.Locals
import JvmLowering.Lowering.StackCode

/-!
# Phi moves

The phis of a block are assigned all at once on each edge into it. At the end of the predecessor,
before its jump, all operands that have to move are pushed, and only then stored, in reverse. A phi
that shares the local variable of its operand needs no move.
-/

namespace JvmLowering

/-- A move of an operand into a phi. -/
structure PhiMove where
  phi : ValueId
  operand : ValueId
deriving DecidableEq, Repr

namespace PhiMoves

/-- The operand is a constant, or not in the local variable of the phi. -/
def isNeeded (b : Body) (a : Locals) (m : PhiMove) : Bool :=
  b.isConstant m.operand || a.slot? m.phi = none || a.slot? m.phi ≠ a.slot? m.operand

/-- The moves on the edge from the predecessor at a position. -/
def onEdge (b : Body) (a : Locals) (phis : List ValueId) (position : Nat) : List PhiMove :=
  (phis.filterMap fun phi => (b.operands phi)[position]?.map (PhiMove.mk phi)).filter (isNeeded b a)

/-- The instructions without a jump at their end, and the jump. -/
def splitJump (b : Body) (instructions : List InsnId) : List InsnId × Option InsnId :=
  match instructions.getLast? with
  | some i => if (b.instruction i).operation.isGoto then (instructions.dropLast, some i)
      else (instructions, none)
  | none => (instructions, none)

/-- Pushes the operand of each move, and gives the moves with their stack entries. -/
def pushAll (c : StackCoding) (k : BlockId) (line : Option UInt32) (e : Emitter) : List PhiMove →
    List (PhiMove × ValueId) × Emitter
  | [] => ([], e)
  | m :: ms =>
    let (entry, e) := c.pushOperand k line e m.operand
    let (rest, e) := pushAll c k line e ms
    ((m, entry) :: rest, e)

/-- Stores a stack entry into the phi of a move. -/
def store (k : BlockId) (line : Option UInt32) (e : Emitter) (move : PhiMove × ValueId) : Emitter :=
  let (m, entry) := move
  (e.popEntry.emit ⟨.store, [entry], some m.phi, k, line⟩).report (.phiMoved m.phi m.operand k)

/-- Adds moves at the end of a block. -/
def insert (c : StackCoding) (l : Lowering) (k : BlockId) (moves : List PhiMove) : Lowering :=
  let (before, jump) := splitJump l.body (l.body.block k).instructions
  let line := jump.bind fun i => (l.body.instruction i).line
  let start : Emitter := { l with emitted := before }
  let (pushed, e) := pushAll c k line start moves
  let e := pushed.reverse.foldl (store k line) e
  { e.toLowering with body := e.body.setInstructions k (e.emitted ++ jump.toList) }

/-- Adds the moves of one edge. They cannot stand in a block that also leads elsewhere. -/
def insertOnEdge (c : StackCoding) (a : Locals) (k : BlockId) (phis : List ValueId) (l : Lowering)
    (edge : BlockId × Nat) :
    Lowering × Option Error :=
  let (predecessor, position) := edge
  match onEdge l.body a phis position with
  | [] => (l, none)
  | moves =>
    if (l.body.block predecessor).successors.length > 1 then (l, some (.criticalEdge predecessor k))
    else (insert c l predecessor moves, none)

/-- A phi without exactly one operand for each predecessor. -/
def miscounted? (b : Body) (k : BlockId) : Option Error :=
  let expected := (b.block k).predecessors.length
  ((b.block k).phis.find? fun phi => (b.operands phi).length ≠ expected).map fun phi =>
    .missingPhiOperand phi expected (b.operands phi).length

/-- A phi that has its moves no longer counts as a reader of its operands. -/
def detach (b : Body) (phi : ValueId) : Body :=
  (b.operands phi).foldl (fun b operand => b.modifyValue operand (·.removePhiReader phi)) b

def resolveBlock (c : StackCoding) (s : Lowering × Locals) (k : BlockId) :
    (Lowering × Locals) × Option Error :=
  let (l, a) := s
  let phis := (l.body.block k).phis
  if phis.isEmpty then (s, none)
  else
    match miscounted? l.body k with
    | some error => (s, some error)
    | none =>
      match attemptAll (insertOnEdge c a k phis) l (l.body.block k).predecessors.zipIdx with
      | (l, some error) => ((l, a), some error)
      | (l, none) =>
        (({ l with body := phis.foldl detach l.body }, phis.foldl (·.addLive k) a), none)

end PhiMoves

/-- Replaces phis by moves, and marks them as live where they were merged. -/
def StackCoding.insertPhiMoves (c : StackCoding) (l : Lowering) (a : Locals) :
    (Lowering × Locals) × Option Error :=
  attemptAll (PhiMoves.resolveBlock c) (l, a) l.body.blocks.indices

end JvmLowering
