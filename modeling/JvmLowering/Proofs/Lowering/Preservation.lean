import JvmLowering.Hierarchy.Platform
import JvmLowering.Proofs.Lowering.Simulation
import JvmLowering.Proofs.Typing.Saturation
import Mathlib.Data.List.Permutation

/-!
# Executions of lowered methods

* `Body.lower_eq_ok`: when a method is lowered;
* `Body.Matches`: what an execution over values and one of stack code have in common;
* `Body.lower_preserves_executions`: every execution of a body is matched by one of the method that
  it is lowered to.
-/

namespace JvmLowering

/-- The block that is executed, or how the execution has ended. -/
def Control.place {α V : Type} : Control α V → BlockId ⊕ (Operation × List V)
  | .running k _ => .inl k
  | .finished operation inputs => .inr (operation, inputs)

namespace Body

variable {V S : Type} {b : Body} {g : Hierarchy} {settings : Settings} {a a' : Locals}
  {lowered : LoweredMethod}

/-- A method is lowered if every step succeeds. -/
theorem lower_eq_ok : (b.lower g settings a).result = (a', .ok lowered) ↔
    ∃ types verifier m frames, (FlowTyping.infer g settings b).result = .ok types ∧
      (VerifierTyping.compute g b).result = .ok verifier ∧
      b.toStackCode ⟨settings, if settings.preciseStack then some verifier else none⟩ a =
        ((m, a'), none) ∧
      (m.body.entryFrames g settings a' verifier).result = .ok frames ∧
      lowered = ⟨m.body, types, verifier, m.maxStack, frames⟩ := by
  constructor
  · intro h
    unfold lower at h
    split at h
    · rename_i hsteps
      simp only [Prod.mk.injEq, Except.ok.injEq] at h
      obtain ⟨rfl, rfl⟩ := h
      -- each pass in turn must not fail
      unfold lowerSteps at hsteps
      simp only at hsteps
      split at hsteps
      · simp at hsteps
      rename_i types htypes
      split at hsteps
      · simp at hsteps
      rename_i verifier hverifier
      split at hsteps
      · simp at hsteps
      rename_i m a₁ hcode
      split at hsteps
      · simp at hsteps
      rename_i frames hframes
      simp only [Reported.mk.injEq, Prod.mk.injEq, Except.ok.injEq] at hsteps
      obtain ⟨⟨rfl, rfl⟩, -⟩ := hsteps
      exact ⟨types, verifier, m, frames, htypes, hverifier, hcode, hframes, rfl⟩
    · simp at h
  · rintro ⟨types, verifier, m, frames, htypes, hverifier, hcode, hframes, rfl⟩
    simp only [lower, lowerSteps, htypes, hverifier, hcode, hframes]

/-- What an execution over values and one of stack code have in common: they are in the same block
or have come to the same end, in the same state, and each value that has been assigned is in its
local variable, if it has one. Nothing is on the operand stack. -/
structure Matches (slot? : ValueId → Option Nat) (s : ValueGraph.Config V S)
    (d : StackMachine.Config V S) : Prop where
  place : d.control.place = s.control.place
  state : d.state = s.state
  locals : ∀ v n x, slot? v = some n → s.env v = some x → d.locals n = some x
  stack : d.stack = []

theorem matches_of_simulates {I : Interpretation V S} {c : StackCoding}
    {slot? : ValueId → Option Nat} {arguments : Nat → V} {s : ValueGraph.Config V S}
    {d : StackMachine.Config V S} (h : StackCoding.Simulates I c b slot? arguments s d) :
    Matches slot? s d := by
  refine ⟨?_, h.state, h.agrees.held, h.stack⟩
  obtain ⟨control, stack, locals, state⟩ := d
  obtain ⟨control', env, state'⟩ := s
  cases h.control with
  | running => rfl
  | finished => rfl

/-- **Lowering preserves executions.** Take any meaning of operations, any arguments, and local
variables that hold these where they belong. Each execution of the body over its values is matched,
step by step, by one of the code that it is lowered to. A meaning can keep a record of all that it
has been asked to perform in its state, so this is the same in both. -/
theorem lower_preserves_executions (hb : b.Built) (hl : b.Lowerable)
    (ha : Locals.naive settings b = .ok a) (h : (b.lower g settings a).result = (a', .ok lowered))
    (I : Interpretation V S) (arguments : Nat → V) (locals : Nat → Option V)
    (hlocals : ∀ index v n, (index, v) ∈ Locals.entryArguments b → a'.slot? v = some n →
      locals n = some (arguments index)) (state : S) (n : Nat) (run : Nat → ValueGraph.Config V S)
    (hstart : run 0 = ValueGraph.start b state)
    (hrun : ∀ j < n, ValueGraph.step I b arguments (run j) = some (run (j + 1))) :
    ∃ ds : Nat → StackMachine.Config V S, ds 0 = StackMachine.start lowered.body locals state ∧
      (∀ j < n, StackMachine.Runs I lowered.body a'.slot? (ds j) (ds (j + 1))) ∧ ∀ j ≤ n,
        Matches a'.slot? (run j) (ds j) := by
  obtain ⟨types, verifier, m, frames, -, -, hcode, -, rfl⟩ := lower_eq_ok.1 h
  have hw := hb.wellFormed
  obtain ⟨hslots, hr⟩ :=
    toStackCode_ok hw (hl.noMoves hw) hl.nodup_successors (hl.endsInJumps _) hcode
  have hhomes : StackCoding.Homes ⟨settings, if settings.preciseStack then some verifier
      else none⟩ b a.slot? :=
    StackCoding.naive_homes hw hl ha
  have hslots' : a.slot? = a'.slot? := funext fun v => (hslots v).symm
  rw [hslots'] at hr hhomes
  have hsim : StackCoding.Simulates I ⟨settings, if settings.preciseStack then some verifier
      else none⟩ b a'.slot? arguments (run 0) (StackMachine.start m.body locals state) := by
    rw [hstart]
    exact ⟨StackCoding.follows_entry hr (Locals.naive_ok ha).1, rfl, rfl,
      fun _ _ _ _ hx => by simp [ValueGraph.start] at hx,
      fun _ _ _ _ hx => by simp [ValueGraph.start] at hx, hlocals⟩
  obtain ⟨ds, hds, hruns, hsims⟩ := StackCoding.simulates_run hw hl hhomes hr run hsim hrun
  exact ⟨ds, hds, hruns, fun j hj => matches_of_simulates (hsims j hj)⟩

/-! ### A loop that swaps two values -/

/-- The platform with a static method of two numbers. -/
def swapHierarchy : Hierarchy :=
  (Hierarchy.platform.addMethod
    ⟨.first, ⟨"swap", by decide⟩, ⟨[.base .int, .base .int], some (.base .int)⟩,
      .ofList [MethodFlag.isStatic]⟩).2

/-- Two phis take each other's value in each round. One sum is never read, and the other one is
returned. -/
def swapLoop : Body := .ofSteps ⟨0⟩
  [.block, .block, .block, .block, .edge ⟨0⟩ ⟨1⟩, .edge ⟨1⟩ ⟨2⟩, .edge ⟨1⟩ ⟨3⟩, .edge ⟨2⟩ ⟨1⟩,
   .instruction ⟨0⟩ (.argument 0) [] (some (.field (.base .int))),
   .instruction ⟨0⟩ (.argument 1) [] (some (.field (.base .int))),
   .instruction ⟨0⟩ .goto,
   .phi ⟨1⟩ (.field (.base .int)), .phi ⟨1⟩ (.field (.base .int)),
   .operand ⟨2⟩ ⟨0⟩, .operand ⟨2⟩ ⟨3⟩, .operand ⟨3⟩ ⟨1⟩, .operand ⟨3⟩ ⟨2⟩,
   .instruction ⟨1⟩ (.constant (.number (.int 1))) [] (some (.field (.base .int))),
   .instruction ⟨1⟩ (.branch .lt) [⟨2⟩, ⟨4⟩],
   .instruction ⟨2⟩ (.binary .add) [⟨2⟩, ⟨4⟩] (some (.field (.base .int))),
   .instruction ⟨2⟩ .goto,
   .instruction ⟨3⟩ (.binary .add) [⟨2⟩, ⟨4⟩] (some (.field (.base .int))),
   .instruction ⟨3⟩ .ret [⟨6⟩]]

theorem swapLoop_lowerable : swapLoop.Lowerable := by
  have hblocks : ∀ k ∈ swapLoop.blocks.indices,
      (∀ insn ∈ swapLoop.instructionsOf k, insn.operation ∉ [.load, .store, .pop]) ∧
      (k ≠ entry → ∀ insn ∈ swapLoop.instructionsOf k, insn.operation.isArgument = false) ∧
      (swapLoop.block k).successors.Nodup ∧
      (∀ insn ∈ (swapLoop.instructionsOf k).dropLast, insn.operation.isExit = false) ∧
      ∃ insn ∈ (swapLoop.instructionsOf k).getLast?, insn.output = none ∧
      insn.operation.targets? = some (swapLoop.block k).successors.length := by
    decide +kernel
  exact ⟨fun k hk => (hblocks k (Table.mem_indices.2 hk)).1,
    fun k hk => (hblocks k (Table.mem_indices.2 hk)).2.1,
    fun k hk => (hblocks k (Table.mem_indices.2 hk)).2.2.1,
    fun k hk => (hblocks k (Table.mem_indices.2 hk)).2.2.2.1,
    fun k hk => (hblocks k (Table.mem_indices.2 hk)).2.2.2.2⟩

/-- The loop is lowered, and its arguments are in the first local variables. -/
theorem swapLoop_lowered : ∃ a a' lowered, Locals.naive {} swapLoop = .ok a ∧
    (swapLoop.lower swapHierarchy {} a).result = (a', .ok lowered) ∧
    ∀ p ∈ Locals.entryArguments swapLoop, a'.slot? p.2 = some p.1 := by
  have h : (match Locals.naive {} swapLoop with
      | .error _ => false
      | .ok a =>
        match (swapLoop.lower swapHierarchy {} a).result with
        | (_, .error _) => false
        | (a', .ok _) =>
          (Locals.entryArguments swapLoop).all fun p => a'.slot? p.2 = some p.1) = true := by
    cbv
  split at h
  · simp at h
  rename_i a ha
  split at h
  · simp at h
  rename_i a' lowered hlowered
  exact ⟨a, a', lowered, ha, hlowered, by simpa using h⟩

/-- Sums, in a state that counts what has been performed. A condition holds in the first three
states. -/
def counting : Interpretation Nat Nat where
  constant _ := 1
  perform _ inputs count := (inputs.foldl Nat.add 0, count + 1)
  holds _ _ count := Nat.blt count 3

/-- The execution of the loop for the arguments 10 and 20. -/
def swapRun : Nat → ValueGraph.Config Nat Nat
  | 0 => ValueGraph.start swapLoop 0
  | j + 1 =>
    (ValueGraph.step counting swapLoop (fun index => 10 * (index + 1)) (swapRun j)).getD (swapRun j)

/-- After one round the second argument is in the first phi. -/
theorem lower_preserves_swapLoop :
    swapLoop.Lowerable ∧ ∃ a a' lowered, Locals.naive {} swapLoop = .ok a ∧
      (swapLoop.lower swapHierarchy {} a).result = (a', .ok lowered) ∧
      ∃ ds : Nat → StackMachine.Config Nat Nat,
        ds 0 = StackMachine.start lowered.body (fun n => some (10 * (n + 1))) 0 ∧
        (∀ j < 11, StackMachine.Runs counting lowered.body a'.slot? (ds j) (ds (j + 1))) ∧
        (ds 11).control.place = .inr (.ret, [21]) := by
  obtain ⟨a, a', lowered, ha, hlowered, hslots⟩ := swapLoop_lowered
  have hbuilt : swapLoop.Built := built_ofSteps _ _
  have hlocals : ∀ index v n, (index, v) ∈ Locals.entryArguments swapLoop → a'.slot? v = some n →
      some (10 * (n + 1)) = some (10 * (index + 1)) := by
    intro index v n hmem hn
    obtain rfl : n = index := Option.some.inj (hn.symm.trans (hslots (index, v) hmem))
    rfl
  have hsome : ∀ j < 11, (ValueGraph.step counting swapLoop
      (fun index => 10 * (index + 1)) (swapRun j)).isSome = true := by
    decide +kernel
  have hrun : ∀ j < 11,
      ValueGraph.step counting swapLoop (fun index => 10 * (index + 1)) (swapRun j) =
      some (swapRun (j + 1)) := by
    intro j hj
    obtain ⟨s, hs⟩ := Option.isSome_iff_exists.1 (hsome j hj)
    rw [swapRun, hs, Option.getD_some]
  have hend : (swapRun 11).control.place = .inr (.ret, [21]) := by decide +kernel
  obtain ⟨ds, hstart, hruns, hmatches⟩ :=
    lower_preserves_executions hbuilt swapLoop_lowerable ha hlowered counting _ _ hlocals 0 11
      swapRun rfl hrun
  exact ⟨swapLoop_lowerable, a, a', lowered, ha, hlowered, ds, hstart, hruns,
    (hmatches 11 (Nat.le_refl 11)).place.trans hend⟩

end Body

end JvmLowering
