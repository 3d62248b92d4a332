import JvmLowering.Proofs.Checked.Access
import JvmLowering.Proofs.Typing.VerifierExactness

/-!
# The analyses with checks

Both analyses of types, with a check of every index that they read. They put only values of the body
on their worklists, and what a value hangs on is in the body, so all checks pass.

* `Checked.Flow`, `Checked.run`: propagation of types;
* `Checked.run_eq`: its checks pass if only values that are there are queued;
* `Checked.Flows.infer_eq`, `Checked.Verification.compute_eq`: the analyses.
-/

namespace JvmLowering

namespace Checked

open Propagation

/-! ### Propagation -/

/-- How types hang together. Any part may have no result. -/
structure Flow where
  bound : Nat
  candidate : (ValueId → FlowType) → ValueId → Option FlowType
  dependents : ValueId → Option (List ValueId)
  refuse : ValueId → FlowType → FlowType → Option (Option Error)

/-- A flow that goes on where there is no result. -/
def Flow.total (f : Flow) : JvmLowering.Flow where
  bound := f.bound
  candidate types v := (f.candidate types v).getD .bottom
  dependents v := (f.dependents v).getD []
  refuse v old candidate := (f.refuse v old candidate).getD none

/-- Takes one value off the worklist. It has to be there. -/
def step (g : Hierarchy) (f : Flow) (s : State) : Option Outcome :=
  match s.work.pop? with
  | none => some .settled
  | some (v, work) =>
    if v.num < f.bound then do
      let old := s.types.get v
      let candidate ← f.candidate s.types.get v
      match ← f.refuse v old candidate with
      | some e => return .refused e
      | none =>
        let new := old.join g candidate
        if new = old then return .continued { s with work, steps := s.steps + 1 }
        else
          return .continued
            { work := work.pushAll (← f.dependents v)
              types := s.types.set v new
              steps := s.steps + 1
              moves := ⟨v, old, new⟩ :: s.moves }
    else none

variable {g : Hierarchy} {f : Flow} {f' : JvmLowering.Flow} {s : State} {o : Outcome}

/-- A step with a result is a step of the flow that goes on. -/
theorem step_total (h : step g f s = some o) : Propagation.step g f.total s = o := by
  unfold step at h
  unfold Propagation.step
  cases hpop : s.work.pop? with
  | none =>
    rw [hpop] at h
    exact Option.some.inj h
  | some x =>
    obtain ⟨v, work⟩ := x
    simp only [hpop] at h ⊢
    by_cases hv : v.num < f.bound
    -- each part of the flow that is asked has a result, which is that of the total flow
    · obtain ⟨candidate, hcandidate, h⟩ := Option.bind_eq_some_iff.1 ((if_pos hv).symm.trans h)
      obtain ⟨refused, hrefused, h⟩ := Option.bind_eq_some_iff.1 h
      simp only [Flow.total, if_pos hv, hcandidate, hrefused, Option.getD_some]
      cases refused with
      | some e => exact Option.some.inj h
      | none =>
        simp only at h ⊢
        split at h
        · rename_i hsame
          rw [if_pos hsame]
          exact Option.some.inj h
        · rename_i hmoved
          obtain ⟨dependents, hdependents, h⟩ := Option.bind_eq_some_iff.1 h
          rw [if_neg hmoved, hdependents]
          exact Option.some.inj h
    · simp [hv] at h

/-- Steps until the worklist is empty or an update is refused. -/
def run (g : Hierarchy) (f : Flow) (s : State) : Option (State × Option Error) :=
  match h : step g f s with
  | none => none
  | some .settled => some (s, none)
  | some (.refused e) => some (s, some e)
  | some (.continued t) =>
    have := step_descends (step_total h)
    run g f t
termination_by s.potential g f.total
decreasing_by assumption

/-- The flow has a result for every value that is there. -/
structure Flow.Agrees (f : Flow) (f' : JvmLowering.Flow) : Prop where
  bound : f.bound = f'.bound
  candidate : ∀ v : ValueId, v.num < f'.bound → ∀ types,
    f.candidate types v = some (f'.candidate types v)
  dependents : ∀ v : ValueId, v.num < f'.bound → f.dependents v = some (f'.dependents v)
  refuse : ∀ v : ValueId, v.num < f'.bound → ∀ old candidate,
    f.refuse v old candidate = some (f'.refuse v old candidate)

theorem step_eq (h : f.Agrees f') (hs : Queued (fun v => v.num < f'.bound) s) :
    step g f s = some (Propagation.step g f' s) := by
  unfold step Propagation.step
  cases hpop : s.work.pop? with
  | none => rfl
  | some x =>
    obtain ⟨v, work⟩ := x
    have hv := hs.mem_of_pop? hpop
    simp only [h.bound, if_pos hv, h.candidate v hv, h.refuse v hv, h.dependents v hv,
      Option.bind_eq_bind, Option.bind_some]
    cases f'.refuse v (s.types.get v) (f'.candidate s.types.get v) with
    | some e => rfl
    | none =>
      simp only
      split <;> rfl

theorem run_unfold (g : Hierarchy) (f : Flow) (s : State) :
    run g f s = (step g f s).bind fun o =>
      match o with
      | .settled => some (s, none)
      | .refused e => some (s, some e)
      | .continued t => run g f t := by
  rw [run]
  split <;> simp only [*] <;> rfl

/-- The checks of a run pass if only values that are there are queued. -/
theorem run_eq (h : f.Agrees f') (hdependents : ∀ v, ∀ w ∈ f'.dependents v, w.num < f'.bound)
    (hs : Queued (fun v => v.num < f'.bound) s) : run g f s = some (Propagation.run g f' s) := by
  fun_induction Propagation.run g f' s with
  | case1 s hstep => rw [run_unfold, step_eq h hs, hstep, Option.bind_some]
  | case2 s e hstep => rw [run_unfold, step_eq h hs, hstep, Option.bind_some]
  | case3 s t hstep _ ih =>
    rw [run_unfold, step_eq h hs, hstep, Option.bind_some]
    exact ih (hs.step hdependents hstep)

/-! ### Arguments -/

variable {b : Body} {settings : Settings} {v : ValueId} {i : InsnId} {k : BlockId}
  {insn : Instruction} {types : ValueId → FlowType}

def argumentType (g : Hierarchy) (b : Body) (index : Nat) (v : ValueId) : Option FlowType :=
  let m := g.method b.method
  let ofParameter (position : Nat) : Option FlowType :=
    match m.type.parameters[position]? with
    | some t => some (.ofField true t)
    | none => (value b v).map fun x => .ofDeclared true x.type
  if m.isStatic then ofParameter index
  else
    match index with
    | 0 => some (.ref (.object m.owner) false)
    | position + 1 => ofParameter position

theorem argumentType_eq (g : Hierarchy) (index : Nat) (hv : v ∈ b.values) :
    argumentType g b index v = some (b.argumentType g index v) := by
  have hparameter : ∀ position : Nat,
      (match (g.method b.method).type.parameters[position]? with
        | some t => some (.ofField true t)
        | none => (value b v).map fun x => .ofDeclared true x.type) =
      some (match (g.method b.method).type.parameters[position]? with
        | some t => FlowType.ofField true t
        | none => .ofDeclared true (b.value v).type) := by
    intro position
    rw [value_eq hv]
    split <;> rfl
  unfold argumentType Body.argumentType
  simp only [hparameter]
  split
  · rfl
  · cases index <;> rfl

/-! ### Flow types -/

namespace Flows

open FlowTyping (firstInput inferredOutput? moveEvents)

def outputType (g : Hierarchy) (b : Body) (types : ValueId → FlowType) (insn : Instruction)
    (v : ValueId) : Option FlowType :=
  match insn.operation with
  | .argument index => argumentType g b index v
  | .checkCast t => some ((firstInput types insn).checkCast g t)
  | .arrayGet => some (firstInput types insn).arrayGet
  | .load | .store => some (firstInput types insn)
  | operation => (value b v).map fun x => operation.ownType x.type

def candidate (g : Hierarchy) (b : Body) (types : ValueId → FlowType) (v : ValueId) :
    Option FlowType := do
  match (← value b v).origin with
  | .phi _ operands => return .joinAll g (operands.map types)
  | _ =>
    match ← definition b v with
    | some insn => outputType g b types insn v
    | none => return .bottom

def dependents (b : Body) (v : ValueId) : Option (List ValueId) := do
  let users := (← value b v).users
  let readers ← users.instructions.toList.mapM (instruction b)
  return readers.filterMap inferredOutput? ++ users.phis.toList

def refuse (g : Hierarchy) (settings : Settings) (b : Body) (v : ValueId)
    (old candidate : FlowType) : Option (Option Error) :=
  (value b v).map fun x =>
    if x.isPhi && settings.checkMonotone && old.join g candidate ≠ candidate then
      some (.nonMonotoneUpdate v old candidate)
    else none

def flow (g : Hierarchy) (settings : Settings) (b : Body) : Flow where
  bound := b.values.size
  candidate := candidate g b
  dependents := dependents b
  refuse := refuse g settings b

def seedInstruction (g : Hierarchy) (b : Body) (s : State) (insn : Instruction) : Option State :=
  match insn.output with
  | none => some s
  | some v =>
    match insn.operation with
    | .argument index =>
      (argumentType g b index v).map fun type => { s with types := s.types.set v type }
    | operation =>
      (value b v).map fun x =>
        if x.isPhi then s
        else if operation.hasOwnType then
          { s with types := s.types.set v (operation.ownType x.type) }
        else { s with work := (s.work.push v).2 }

def seedBlock (g : Hierarchy) (b : Body) (s : State) (k : BlockId) : Option State := do
  let s ← (← instructionsOf b k).foldlM (seedInstruction g b) s
  return { s with work := s.work.pushAll (← block b k).phis }

def seed (g : Hierarchy) (b : Body) : Option State := b.blocks.indices.foldlM (seedBlock g b) {}

def infer (g : Hierarchy) (settings : Settings) (b : Body) :
    Option (Reported (Except Error FlowTyping)) := do
  match ← run g (flow g settings b) (← seed g b) with
  | (s, none) =>
    return ⟨.ok ⟨s.types⟩, moveEvents s ++ [.typesSettled b.method s.steps s.types.size]⟩
  | (s, some e) => return ⟨.error e, moveEvents s⟩

theorem outputType_eq (g : Hierarchy) (types : ValueId → FlowType) (insn : Instruction)
    (hv : v ∈ b.values) :
    outputType g b types insn v = some (FlowTyping.outputType g b types insn v) := by
  unfold outputType FlowTyping.outputType
  rw [value_eq hv]
  cases insn.operation with
  | argument index => exact argumentType_eq g index hv
  | _ => rfl

theorem candidate_eq (g : Hierarchy) (hc : b.Closed) (types : ValueId → FlowType)
    (hv : v ∈ b.values) :
    candidate g b types v = some (FlowTyping.candidate g b types v) := by
  unfold candidate FlowTyping.candidate
  rw [value_eq hv, definition_eq hc hv, Option.bind_eq_bind, Option.bind_some]
  have hmade : (match b.definition? v with
      | some insn => outputType g b types insn v
      | none => some .bottom) = some (match b.definition? v with
      | some insn => FlowTyping.outputType g b types insn v
      | none => .bottom) := by
    cases b.definition? v with
    | none => rfl
    | some insn => exact outputType_eq g types insn hv
  cases (b.value v).origin with
  | phi l operands => rfl
  | instruction i => exact hmade
  | stack slot definition => exact hmade

theorem dependents_eq (hc : b.Closed) (hv : v ∈ b.values) :
    dependents b v = some (FlowTyping.dependents b v) := by
  have hreaders : (b.value v).users.instructions.toList.mapM (instruction b) =
      some ((b.value v).users.instructions.toList.map b.instruction) :=
    mapM_eq fun i hi => instruction_eq (hc.readers v i (Std.TreeSet.mem_toList.1 hi))
  unfold dependents FlowTyping.dependents
  simp only [value_eq hv, hreaders, Option.bind_eq_bind, Option.bind_some, List.filterMap_map]
  rfl

theorem flow_agrees (g : Hierarchy) (settings : Settings) (hc : b.Closed) :
    (flow g settings b).Agrees (FlowTyping.flow g settings b) where
  bound := rfl
  candidate _ hv types := candidate_eq g hc types hv
  dependents _ hv := dependents_eq hc hv
  refuse v hv old candidate := by
    show refuse g settings b v old candidate = _
    unfold refuse
    rw [value_eq hv]
    rfl

theorem seedInstruction_eq (g : Hierarchy) (s : State)
    (houtput : ∀ v, insn.output = some v → v ∈ b.values) :
    seedInstruction g b s insn = some (FlowTyping.seedInstruction g b s insn) := by
  unfold seedInstruction FlowTyping.seedInstruction
  cases hout : insn.output with
  | none => rfl
  | some v =>
    simp only [value_eq (houtput v hout), argumentType_eq g _ (houtput v hout)]
    cases insn.operation <;> rfl

theorem seedBlock_eq (g : Hierarchy) (hc : b.Closed) (s : State) (hk : k ∈ b.blocks) :
    seedBlock g b s k = some (FlowTyping.seedBlock g b s k) := by
  have hseed : (b.instructionsOf k).foldlM (seedInstruction g b) s = some
      ((b.instructionsOf k).foldl (FlowTyping.seedInstruction g b) s) := by
    refine foldlM_eq (P := fun _ => True) (fun s _ insn hinsn => ⟨?_, trivial⟩) trivial
    obtain ⟨i, hi, rfl⟩ := List.mem_map.1 hinsn
    exact seedInstruction_eq g s (hc.output i (hc.instructions k i hi))
  unfold seedBlock FlowTyping.seedBlock
  simp only [instructionsOf_eq hc hk, block_eq hk, hseed, Option.bind_eq_bind, Option.bind_some]
  rfl

theorem seed_eq (g : Hierarchy) (hc : b.Closed) :
    seed g b = some (FlowTyping.seed g b) :=
  foldlM_eq (P := fun _ => True)
    (fun s _ _ hk => ⟨seedBlock_eq g hc s (Table.mem_indices.1 hk), trivial⟩) trivial

/-- Flow types are found without reading anything that is not there. -/
theorem infer_eq (g : Hierarchy) (settings : Settings) (hb : b.WellFormed) :
    infer g settings b = some (FlowTyping.infer g settings b) := by
  have hrun := run_eq (g := g) (flow_agrees g settings hb.closed)
    (FlowTyping.mem_values_of_dependents hb)
    (FlowTyping.seed_sound (g := g) hb).queued
  unfold infer FlowTyping.infer
  simp only [seed_eq g hb.closed, hrun, Option.bind_eq_bind, Option.bind_some]
  rcases Propagation.run _ _ _ with ⟨s, - | e⟩ <;> rfl

end Flows

/-! ### Types that the verifier sees -/

namespace Verification

def isTracked (b : Body) (v : ValueId) : Option Bool := (value b v).map (·.type.isReference)

/-- The declared type of the first input, if there is one. -/
def firstDeclared? (b : Body) (insn : Instruction) : Option (Option (DeclaredType ClassId)) :=
  match insn.inputs.head? with
  | some v => (value b v).map fun x => some x.type
  | none => some none

def ownType (b : Body) (insn : Instruction) (v : ValueId) : Option FlowType := do
  let declared : FlowType := .ofDeclared true (← value b v).type
  match insn.operation with
  | .constant .null => return .null
  | .checkCast t => return .ref t true
  | .newInstance c | .moveException c => return .ref (.object c) false
  | .newArray t => return .ref t false
  | .arrayGet =>
    match (← firstDeclared? b insn).bind (·.refType?) with
    | some t =>
      let element := FlowType.arrayGet (.ref t true)
      return if element.isReference then element else declared
    | none => return declared
  | _ => return declared

def candidate (g : Hierarchy) (b : Body) (types : ValueId → FlowType) (v : ValueId) :
    Option FlowType := do
  match (← value b v).origin with
  | .phi _ operands => return .joinAll g (operands.map types)
  | _ =>
    match ← definition b v with
    | none => return .bottom
    | some insn =>
      match insn.operation with
      | .load | .store => return FlowTyping.firstInput types insn
      | _ => return .ofDeclared true (← value b v).type

/-- The tracked output of an instruction, if there is one. -/
def trackedOutput? (b : Body) (insn : Instruction) : Option (Option ValueId) :=
  match insn.output with
  | some v => (isTracked b v).map fun tracked => if tracked then some v else none
  | none => some none

def inferredOutput? (b : Body) (insn : Instruction) : Option (Option ValueId) :=
  if insn.operation.isArgument || insn.operation.hasOwnVerificationType then some none
  else trackedOutput? b insn

def dependents (b : Body) (v : ValueId) : Option (List ValueId) := do
  let users := (← value b v).users
  let readers ← users.instructions.toList.mapM (instruction b)
  let outputs ← readers.mapM (inferredOutput? b)
  let phis ← users.phis.toList.filterM (isTracked b)
  return outputs.filterMap id ++ phis

def flow (g : Hierarchy) (b : Body) : Flow where
  bound := b.values.size
  candidate := candidate g b
  dependents := dependents b
  refuse v old candidate := some (VerifierTyping.refuse g v old candidate)

def seedInstruction (g : Hierarchy) (b : Body) (s : State) (insn : Instruction) :
    Option State := do
  match ← trackedOutput? b insn with
  | none => return s
  | some v =>
    match insn.operation with
    | .argument index => return { s with types := s.types.set v (← argumentType g b index v) }
    | operation =>
      if operation.hasOwnVerificationType then
        return { s with types := s.types.set v (← ownType b insn v) }
      else return { s with work := (s.work.push v).2 }

def seedBlock (g : Hierarchy) (b : Body) (s : State) (k : BlockId) : Option State := do
  let s ← (← instructionsOf b k).foldlM (seedInstruction g b) s
  return { s with work := s.work.pushAll (← (← block b k).phis.filterM (isTracked b)) }

def seed (g : Hierarchy) (b : Body) : Option State := b.blocks.indices.foldlM (seedBlock g b) {}

def complete (b : Body) (types : TypeMap) : Option TypeMap :=
  b.values.indices.foldlM
    (fun types v => (value b v).map fun x =>
      if x.type.isReference && types.get v = .bottom then types.set v (.ofDeclared true x.type)
      else types)
    types

def compute (g : Hierarchy) (b : Body) : Option (Reported (Except Error VerifierTyping)) := do
  match ← run g (flow g b) (← seed g b) with
  | (s, none) =>
    return ⟨.ok ⟨← complete b s.types⟩, [.verificationSettled b.method s.steps]⟩
  | (_, some e) => return ⟨.error e, []⟩

theorem isTracked_eq (hv : v ∈ b.values) :
    isTracked b v = some (VerifierTyping.isTracked b v) := by
  unfold isTracked
  rw [value_eq hv]
  rfl

theorem firstDeclared?_eq (hinputs : ∀ v ∈ insn.inputs, v ∈ b.values) :
    firstDeclared? b insn = some (insn.inputs.head?.map fun v => (b.value v).type) := by
  unfold firstDeclared?
  cases hhead : insn.inputs.head? with
  | none => rfl
  | some v =>
    simp only [value_eq (hinputs v (List.mem_of_head? hhead))]
    rfl

theorem ownType_eq (hinputs : ∀ v ∈ insn.inputs, v ∈ b.values) (hv : v ∈ b.values) :
    ownType b insn v = some (VerifierTyping.ownType b insn v) := by
  unfold ownType VerifierTyping.ownType
  rw [value_eq hv, firstDeclared?_eq hinputs, Option.bind_eq_bind, Option.bind_some]
  cases insn.operation with
  | constant c => cases c <;> rfl
  | arrayGet =>
    simp only [Option.bind_eq_bind, Option.bind_some, Option.bind_map, Function.comp_def]
    cases insn.inputs.head?.bind fun array => (b.value array).type.refType? with
    | none => rfl
    | some t => rfl
  | _ => rfl

theorem candidate_eq (g : Hierarchy) (hc : b.Closed) (types : ValueId → FlowType)
    (hv : v ∈ b.values) :
    candidate g b types v = some (VerifierTyping.candidate g b types v) := by
  unfold candidate VerifierTyping.candidate
  simp only [value_eq hv, definition_eq hc hv, Option.bind_eq_bind, Option.bind_some]
  have hmade : ∀ insn : Instruction, (match insn.operation with
      | .load | .store => some (FlowTyping.firstInput types insn)
      | _ => some (.ofDeclared true (b.value v).type)) = some (match insn.operation with
      | .load | .store => FlowTyping.firstInput types insn
      | _ => .ofDeclared true (b.value v).type) := by
    intro insn
    cases insn.operation <;> rfl
  cases (b.value v).origin with
  | phi l operands => rfl
  | instruction i =>
    cases b.definition? v with
    | none => rfl
    | some insn => exact hmade insn
  | stack slot definition =>
    cases b.definition? v with
    | none => rfl
    | some insn => exact hmade insn

theorem trackedOutput?_eq (houtput : ∀ v, insn.output = some v → v ∈ b.values) :
    trackedOutput? b insn = some (insn.output.filter (VerifierTyping.isTracked b)) := by
  unfold trackedOutput?
  cases hout : insn.output with
  | none => rfl
  | some v =>
    simp only [isTracked_eq (houtput v hout), Option.map_some, Option.filter_some]

theorem inferredOutput?_eq (houtput : ∀ v, insn.output = some v → v ∈ b.values) :
    inferredOutput? b insn = some (VerifierTyping.inferredOutput? b insn) := by
  unfold inferredOutput? VerifierTyping.inferredOutput?
  split
  · rfl
  · exact trackedOutput?_eq houtput

theorem dependents_eq (hc : b.Closed) (hv : v ∈ b.values) :
    dependents b v = some (VerifierTyping.dependents b v) := by
  have hmem : ∀ i ∈ (b.value v).users.instructions.toList, i ∈ b.instructions :=
    fun i hi => hc.readers v i (Std.TreeSet.mem_toList.1 hi)
  have hreaders : (b.value v).users.instructions.toList.mapM (instruction b) =
      some ((b.value v).users.instructions.toList.map b.instruction) :=
    mapM_eq fun i hi => instruction_eq (hmem i hi)
  have houtputs : ((b.value v).users.instructions.toList.map b.instruction).mapM
      (inferredOutput? b) = some (((b.value v).users.instructions.toList.map b.instruction).map
        (VerifierTyping.inferredOutput? b)) := by
    refine mapM_eq fun insn hinsn => ?_
    obtain ⟨i, hi, rfl⟩ := List.mem_map.1 hinsn
    exact inferredOutput?_eq (hc.output i (hmem i hi))
  have hphis : (b.value v).users.phis.toList.filterM (isTracked b) =
      some ((b.value v).users.phis.toList.filter (VerifierTyping.isTracked b)) :=
    filterM_eq fun p hp => isTracked_eq (hc.phiReaders v p (Std.TreeSet.mem_toList.1 hp))
  unfold dependents VerifierTyping.dependents
  simp only [value_eq hv, hreaders, houtputs, hphis, Option.bind_eq_bind, Option.bind_some,
    List.filterMap_map]
  rfl

theorem flow_agrees (g : Hierarchy) (hc : b.Closed) :
    (flow g b).Agrees (VerifierTyping.flow g b) where
  bound := rfl
  candidate _ hv types := candidate_eq g hc types hv
  dependents _ hv := dependents_eq hc hv
  refuse _ _ _ _ := rfl

theorem seedInstruction_eq (g : Hierarchy) (s : State) (hinputs : ∀ v ∈ insn.inputs, v ∈ b.values)
    (houtput : ∀ v, insn.output = some v → v ∈ b.values) :
    seedInstruction g b s insn = some (VerifierTyping.seedInstruction g b s insn) := by
  unfold seedInstruction VerifierTyping.seedInstruction
  rw [trackedOutput?_eq houtput, Option.bind_eq_bind, Option.bind_some]
  cases hout : insn.output.filter (VerifierTyping.isTracked b) with
  | none => rfl
  | some v =>
    have hv := houtput v (Option.eq_some_of_filter_eq_some hout)
    simp only [ownType_eq hinputs hv, argumentType_eq g _ hv, Option.bind_eq_bind, Option.bind_some]
    cases insn.operation <;> rfl

theorem seedBlock_eq (g : Hierarchy) (hc : b.Closed) (s : State) (hk : k ∈ b.blocks) :
    seedBlock g b s k = some (VerifierTyping.seedBlock g b s k) := by
  have hseed : (b.instructionsOf k).foldlM (seedInstruction g b) s = some
      ((b.instructionsOf k).foldl (VerifierTyping.seedInstruction g b) s) := by
    refine foldlM_eq (P := fun _ => True) (fun s _ insn hinsn => ⟨?_, trivial⟩) trivial
    obtain ⟨i, hi, rfl⟩ := List.mem_map.1 hinsn
    have hi' := hc.instructions k i hi
    exact seedInstruction_eq g s (hc.inputs i hi') (hc.output i hi')
  have hphis : (b.block k).phis.filterM (isTracked b) =
      some ((b.block k).phis.filter (VerifierTyping.isTracked b)) :=
    filterM_eq fun p hp => isTracked_eq (hc.phis k p hp)
  unfold seedBlock VerifierTyping.seedBlock
  simp only [instructionsOf_eq hc hk, block_eq hk, hseed, hphis, Option.bind_eq_bind,
    Option.bind_some]
  rfl

theorem seed_eq (g : Hierarchy) (hc : b.Closed) : seed g b = some (VerifierTyping.seed g b) :=
  foldlM_eq (P := fun _ => True)
    (fun s _ _ hk => ⟨seedBlock_eq g hc s (Table.mem_indices.1 hk), trivial⟩) trivial

theorem complete_eq (b : Body) (types : TypeMap) :
    complete b types = some (VerifierTyping.complete b types) := by
  refine foldlM_eq (P := fun _ => True) (fun types _ v hv => ⟨?_, trivial⟩) trivial
  rw [value_eq (Table.mem_indices.1 hv)]
  rfl

/-- The types that the verifier sees are found without reading anything that is not there. -/
theorem compute_eq (hb : b.WellFormed) (hargs : b.ReferenceArguments g) :
    compute g b = some (VerifierTyping.compute g b) := by
  have hqueued := (VerifierTyping.seed_seeded hb hargs).1.tidy.queued
  have hrun := run_eq (g := g) (flow_agrees g hb.closed)
    (fun v w hw => (VerifierTyping.tracked_of_dependents hb v w hw).1)
    ⟨hqueued.queue, fun v hv => (hqueued.mem v hv).1⟩
  unfold compute VerifierTyping.compute
  simp only [seed_eq g hb.closed, hrun, complete_eq, Option.bind_eq_bind, Option.bind_some]
  rcases Propagation.run _ _ _ with ⟨s, - | e⟩ <;> rfl

end Verification

end Checked

end JvmLowering
