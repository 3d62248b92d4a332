import JvmLowering.Proofs.Body.Built
import Mathlib.Data.List.Forall2
import Mathlib.Logic.Relation

/-!
# Executions of value graphs and of stack code

A body can be executed in two ways. As a graph of values, each instruction reads its inputs where
they were assigned and assigns its output, and the phis of a block are assigned all at once on the
edge that is taken. As stack code, each instruction pops its inputs from an operand stack and pushes
its output there, and loads and stores move values between the stack and the local variables. What
an operation computes is left open in both.

* `Interpretation`: a meaning of operations;
* `ValueGraph.step`, `ValueGraph.Transition`: one step over the values, and what it can be;
* `Command`, `StackMachine.step`: what an instruction does on the stack, and one step of it.
-/

namespace JvmLowering

/-! ### Meanings of operations -/

/-- A meaning of operations. A constant has a value; every other operation makes a value from its
inputs and a state, and changes the state. -/
structure Interpretation (V S : Type) where
  constant : Constant → V
  perform : Operation → List V → S → V × S
  holds : Condition → List V → S → Bool

/-- How many blocks can follow an operation that ends a block. -/
def Operation.targets? : Operation → Option Nat
  | goto => some 1
  | branch _ => some 2
  | ret | raise => some 0
  | _ => none

/-- Ends a block. -/
def Operation.isExit (operation : Operation) : Bool := operation.targets?.isSome

/-- Where an execution is: before some instructions of a block, or at its end. -/
inductive Control (α V : Type) where
  | running (k : BlockId) (rest : List α)
  | finished (operation : Operation) (inputs : List V)

variable {V S : Type}

/-- The block that follows; none after the last one. -/
def Interpretation.target? (I : Interpretation V S) (successors : List BlockId)
    (operation : Operation) (inputs : List V) (state : S) : Option BlockId :=
  match operation with
  | .goto => successors[0]?
  | .branch c => if I.holds c inputs state then successors[0]? else successors[1]?
  | _ => none

/-! ### Value graphs -/

namespace ValueGraph

structure Config (V S : Type) where
  control : Control Instruction V
  env : ValueId → Option V
  state : S

def start (b : Body) (state : S) : Config V S :=
  ⟨.running Body.entry (b.instructionsOf Body.entry), fun _ => none, state⟩

/-- Assigns an output, if there is one. -/
def assign (env : ValueId → Option V) (output : Option ValueId) (x : V) : ValueId → Option V :=
  output.elim env fun v => Function.update env v (some x)

/-- The values after the edge between two blocks, if all operands for the edge have been
assigned. -/
def enter? (b : Body) (env : ValueId → Option V) (k l : BlockId) : Option (ValueId → Option V) :=
  let entered := b.enter env l ((b.block l).predecessors.idxOf k)
  if (b.block l).phis.all fun p => (entered p).isSome then some entered else none

/-- One step. There is none that reads a value which has not been assigned. -/
def step (I : Interpretation V S) (b : Body) (arguments : Nat → V) (c : Config V S) :
    Option (Config V S) :=
  match c.control with
  | .finished _ _ | .running _ [] => none
  | .running k (insn :: rest) =>
    match insn.operation with
    | .argument index => some ⟨.running k rest, assign c.env insn.output (arguments index), c.state⟩
    | .constant constant => do
      let _ ← insn.inputs.mapM c.env
      return ⟨.running k rest, assign c.env insn.output (I.constant constant), c.state⟩
    | operation => do
      let inputs ← insn.inputs.mapM c.env
      let (x, state) := I.perform operation inputs c.state
      if operation.isExit then
        match I.target? (b.block k).successors operation inputs c.state with
        | some l => return ⟨.running l (b.instructionsOf l), ← enter? b c.env k l, state⟩
        | none => return ⟨.finished operation inputs, c.env, state⟩
      else return ⟨.running k rest, assign c.env insn.output x, state⟩

/-- Values that have been assigned, and to what. -/
def Reads (env : ValueId → Option V) : List ValueId → List V → Prop :=
  List.Forall₂ fun v x => env v = some x

/-- What the execution of an instruction can be. -/
inductive Transition (I : Interpretation V S) (b : Body) (arguments : Nat → V) (k : BlockId)
    (insn : Instruction) (rest : List Instruction) (env : ValueId → Option V) (state : S) :
    Config V S → Prop
  | argument {index : Nat} (operation : insn.operation = .argument index) :
      Transition I b arguments k insn rest env state
        ⟨.running k rest, assign env insn.output (arguments index), state⟩
  | constant {constant : Constant} {inputs : List V}
      (operation : insn.operation = .constant constant)
      (reads : Reads env insn.inputs inputs) :
      Transition I b arguments k insn rest env state
        ⟨.running k rest, assign env insn.output (I.constant constant), state⟩
  | perform {inputs : List V} (argument : insn.operation.isArgument = false)
      (constant : insn.operation.isConstant = false)
      (exit : insn.operation.isExit = false) (reads : Reads env insn.inputs inputs) :
      Transition I b arguments k insn rest env state
        ⟨.running k rest, assign env insn.output (I.perform insn.operation inputs state).1,
          (I.perform insn.operation inputs state).2⟩
  | jump {inputs : List V} {l : BlockId} {env' : ValueId → Option V}
      (exit : insn.operation.isExit = true)
      (reads : Reads env insn.inputs inputs)
      (target : I.target? (b.block k).successors insn.operation inputs state = some l)
      (entered : enter? b env k l = some env') :
      Transition I b arguments k insn rest env state
        ⟨.running l (b.instructionsOf l), env', (I.perform insn.operation inputs state).2⟩
  | finish {inputs : List V} (exit : insn.operation.isExit = true)
      (reads : Reads env insn.inputs inputs)
      (target : I.target? (b.block k).successors insn.operation inputs state = none) :
      Transition I b arguments k insn rest env state
        ⟨.finished insn.operation inputs, env, (I.perform insn.operation inputs state).2⟩

theorem reads_of_mapM {env : ValueId → Option V} {vs : List ValueId} {xs : List V}
    (h : vs.mapM env = some xs) :
    Reads env vs xs := by
  induction vs generalizing xs with
  | nil =>
    obtain rfl : [] = xs := by simpa using h
    exact List.Forall₂.nil
  | cons v vs ih =>
    rw [List.mapM_cons] at h
    obtain ⟨x, hx, h⟩ := Option.bind_eq_some_iff.1 h
    obtain ⟨ys, hys, h⟩ := Option.bind_eq_some_iff.1 h
    obtain rfl := Option.some.inj h
    exact List.Forall₂.cons hx (ih hys)

theorem transition_of_step {I : Interpretation V S} {b : Body} {arguments : Nat → V}
    {c c' : Config V S} (h : step I b arguments c = some c') :
    ∃ k insn rest, c.control = .running k (insn :: rest) ∧
      Transition I b arguments k insn rest c.env c.state c' := by
  unfold step at h
  split at h
  -- an execution that has ended, or a block without an end, makes no step
  · simp at h
  · simp at h
  rename_i k insn rest hcontrol
  refine ⟨k, insn, rest, hcontrol, ?_⟩
  split at h
  · rename_i index hop
    obtain rfl := Option.some.inj h
    exact .argument hop
  · rename_i constant hop
    obtain ⟨inputs, hinputs, h⟩ := Option.bind_eq_some_iff.1 h
    obtain rfl := Option.some.inj h
    exact .constant hop (reads_of_mapM hinputs)
  · rename_i operation hargument hconstant hop
    obtain ⟨inputs, hinputs, h⟩ := Option.bind_eq_some_iff.1 h
    have hreads := reads_of_mapM hinputs
    simp only at h
    split at h
    -- an exit goes to a block or ends the execution
    · rename_i hexit
      split at h
      · rename_i l htarget
        obtain ⟨env', henter, h⟩ := Option.bind_eq_some_iff.1 h
        obtain rfl := Option.some.inj h
        exact .jump hexit hreads htarget henter
      · rename_i htarget
        obtain rfl := Option.some.inj h
        exact .finish hexit hreads htarget
    -- anything else is performed in place
    · rename_i hexit
      obtain rfl := Option.some.inj h
      refine .perform ?_ ?_ (by simpa using hexit) hreads
      · cases hop : insn.operation <;> simp_all [Operation.isArgument]
      · cases hop : insn.operation <;> simp_all [Operation.isConstant]

end ValueGraph

/-! ### Stack code -/

/-- What an instruction does with the operand stack and the local variables. -/
inductive Command where
  /-- An argument is in its local variable from the start. -/
  | skip
  | load (v : ValueId)
  | store (v : ValueId)
  | drop
  /-- Pops the inputs and pushes the output, if there is one. -/
  | act (operation : Operation) (arity : Nat) (pushes : Bool)
  /-- A load or store that does not say of what. -/
  | invalid
deriving DecidableEq

def Instruction.command (insn : Instruction) : Command :=
  match insn.operation with
  | .argument _ => .skip
  | .load => insn.inputs.head?.elim .invalid .load
  | .store => insn.output.elim .invalid .store
  | .pop => .drop
  | operation => .act operation insn.inputs.length insn.output.isSome

namespace StackMachine

structure Config (V S : Type) where
  control : Control Command V
  /-- The newest value first. -/
  stack : List V
  locals : Nat → Option V
  state : S

/-- The commands of a block. -/
def code (b : Body) (k : BlockId) : List Command := (b.instructionsOf k).map Instruction.command

def start (b : Body) (locals : Nat → Option V) (state : S) : Config V S :=
  ⟨.running Body.entry (code b Body.entry), [], locals, state⟩

/-- One step, where `slot?` says in which local variable a value is. -/
def step (I : Interpretation V S) (b : Body) (slot? : ValueId → Option Nat) (d : Config V S) :
    Option (Config V S) :=
  match d.control with
  | .finished _ _ | .running _ [] => none
  | .running k (command :: rest) =>
    match command, d.stack with
    | .skip, stack => some { d with control := .running k rest, stack }
    | .load v, stack => do
      let n ← slot? v
      let x ← d.locals n
      return { d with control := .running k rest, stack := x :: stack }
    | .store v, x :: stack => do
      let n ← slot? v
      return { d with
        control := .running k rest, stack, locals := Function.update d.locals n (some x) }
    | .drop, _ :: stack => some { d with control := .running k rest, stack }
    | .act operation arity pushes, stack =>
      if stack.length < arity then none
      else
        let inputs := (stack.take arity).reverse
        let stack := stack.drop arity
        match operation with
        | .constant constant =>
          some { d with
            control := .running k rest
            stack := if pushes then I.constant constant :: stack else stack }
        | operation =>
          let (x, state) := I.perform operation inputs d.state
          if operation.isExit then
            match I.target? (b.block k).successors operation inputs d.state with
            | some l => some { d with control := .running l (code b l), stack, state }
            | none => some { d with control := .finished operation inputs, stack, state }
          else
            some { d with
              control := .running k rest, stack := if pushes then x :: stack else stack, state }
    | _, _ => none

/-- Any number of steps. -/
def Runs (I : Interpretation V S) (b : Body) (slot? : ValueId → Option Nat) :
    Config V S → Config V S → Prop :=
  Relation.ReflTransGen fun d d' => step I b slot? d = some d'

section Steps

variable {I : Interpretation V S} {b : Body} {slot? : ValueId → Option Nat} {k : BlockId}
  {rest : List Command} {stack : List V} {locals : Nat → Option V} {state : S} {v : ValueId}
  {n : Nat} {x : V}

theorem step_load (hn : slot? v = some n) (hx : locals n = some x) :
    step I b slot? ⟨.running k (.load v :: rest), stack, locals, state⟩ =
      some ⟨.running k rest, x :: stack, locals, state⟩ := by
  simp [step, hn, hx]

theorem step_store (hn : slot? v = some n) :
    step I b slot? ⟨.running k (.store v :: rest), x :: stack, locals, state⟩ =
      some ⟨.running k rest, stack, Function.update locals n (some x), state⟩ := by
  simp [step, hn]

theorem step_skip :
    step I b slot? ⟨.running k (.skip :: rest), stack, locals, state⟩ =
      some ⟨.running k rest, stack, locals, state⟩ := rfl

theorem step_drop :
    step I b slot? ⟨.running k (.drop :: rest), x :: stack, locals, state⟩ =
      some ⟨.running k rest, stack, locals, state⟩ := rfl

theorem step_constant {constant : Constant} (xs : List V) (pushes : Bool) :
    step I b slot? ⟨.running k (.act (.constant constant) xs.length pushes :: rest),
      xs.reverse ++ stack, locals, state⟩ =
      some ⟨.running k rest, if pushes then I.constant constant :: stack
        else stack, locals, state⟩ := by
  simp [step]

/-- An operation other than a constant finds its inputs on the stack, the last one on top. -/
theorem step_act {operation : Operation} (hop : operation.isConstant = false) (xs : List V)
    (pushes : Bool) :
    step I b slot? ⟨.running k (.act operation xs.length pushes :: rest), xs.reverse ++ stack,
      locals, state⟩ =
      some
        (if operation.isExit then
          match I.target? (b.block k).successors operation xs state with
          | some l => ⟨.running l (code b l), stack, locals, (I.perform operation xs state).2⟩
          | none => ⟨.finished operation xs, stack, locals, (I.perform operation xs state).2⟩
        else ⟨.running k rest, if pushes then (I.perform operation xs state).1 :: stack
          else stack, locals,
          (I.perform operation xs state).2⟩) := by
  have htake : ((xs.reverse ++ stack).take xs.length).reverse = xs := by simp [List.take_left']
  have hdrop : (xs.reverse ++ stack).drop xs.length = stack := by simp [List.drop_left']
  have hlength : ¬ (xs.reverse ++ stack).length < xs.length := by simp
  unfold step
  simp only [if_neg hlength, htake, hdrop]
  split
  · simp [Operation.isConstant] at hop
  · split
    · split <;> simp_all
    · rfl

end Steps

end StackMachine

end JvmLowering
