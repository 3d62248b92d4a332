import JvmLowering.Proofs.Lowering.EdgeMoves

/-!
# Lowering preserves behaviour

Whatever operations mean, an execution of a body over its values is followed step by step by an
execution of its stack code. In between the operand stack is empty, and each value that has a local
variable is found there once it has been assigned.

* `Body.Lowerable`: what is asked of a body;
* `StackCoding.Homes`: which values have local variables;
* `StackCoding.Simulates`, `StackCoding.simulates_step`: how the two executions go together, and
  that each step keeps them so;
* `StackCoding.simulates_run`: a whole execution of a body, followed by its stack code.
-/

namespace JvmLowering

/-! ### What is asked of a body -/

/-- Nothing is on the stack yet, arguments are made in the entry block, no edge is there twice, and
each block ends in its only exit, which has as many successors as it can lead to. -/
structure Body.Lowerable (b : Body) : Prop where
  operations : ∀ k ∈ b.blocks, ∀ insn ∈ b.instructionsOf k, insn.operation ∉ [.load, .store, .pop]
  arguments : ∀ k ∈ b.blocks, k ≠ Body.entry → ∀ insn ∈ b.instructionsOf k,
    insn.operation.isArgument = false
  successors : ∀ k ∈ b.blocks, (b.block k).successors.Nodup
  inner : ∀ k ∈ b.blocks, ∀ insn ∈ (b.instructionsOf k).dropLast, insn.operation.isExit = false
  exit : ∀ k ∈ b.blocks, ∃ insn ∈ (b.instructionsOf k).getLast?,
    insn.output = none ∧ insn.operation.targets? = some (b.block k).successors.length

section Instructions

variable {b : Body} {c : StackCoding} {insn : Instruction} {k : BlockId}

theorem Instruction.command_of_act (hop : insn.operation ∉ [.load, .store, .pop])
    (harg : insn.operation.isArgument = false) :
    insn.command = .act insn.operation insn.inputs.length insn.output.isSome := by
  unfold command
  split <;> simp_all [Operation.isArgument]

theorem Operation.of_isExit {operation : Operation} (h : operation.isExit = true) :
    operation ∉ [.load, .store, .pop] ∧ operation.isArgument = false ∧
      operation.isConstant = false := by
  cases operation <;> simp_all [isExit, targets?, isArgument, isConstant]

theorem Operation.isExit_of_targets? {operation : Operation} {n : Nat}
    (h : operation.targets? = some n) :
    operation.isExit = true := by
  rw [isExit, h]
  rfl

theorem StackCoding.translate_of_exit (hexit : insn.operation.isExit = true)
    (hout : insn.output = none) :
    c.translate b insn = insn.inputs.map (c.pushCommand b) ++
      [.act insn.operation insn.inputs.length false] := by
  obtain ⟨hop, hargument, hconstant⟩ := Operation.of_isExit hexit
  simp [translate, isDropped, hargument, hconstant, Instruction.command_of_act hop hargument, hout]

namespace Body.Lowerable

/-- A block is what comes before its exit, and the exit. -/
theorem split (h : b.Lowerable) (hk : k ∈ b.blocks) : ∃ front exit,
    b.instructionsOf k = front ++ [exit] ∧ (∀ insn ∈ front, insn.operation.isExit = false) ∧
    exit.output = none ∧
    exit.operation.targets? = some (b.block k).successors.length := by
  obtain ⟨exit, hexit, hout, htargets⟩ := h.exit k hk
  have hlast := List.dropLast_append_getLast? exit hexit
  exact ⟨_, exit, hlast.symm, h.inner k hk, hout, htargets⟩

theorem noMoves (h : b.Lowerable) (hb : b.WellFormed) : StackCoding.NoMoves b := by
  intro i hi
  have hmem := hb.mem_instructionsOf hi
  have hop := h.operations _ (mem_blocks_of_instruction hmem) _ hmem
  exact ⟨fun he => hop (by simp [he]), fun he => hop (by simp [he])⟩

theorem nodup_successors (h : b.Lowerable) (k : BlockId) : (b.block k).successors.Nodup := by
  by_cases hk : k ∈ b.blocks
  · exact h.successors k hk
  · rw [block_of_notMem hk]
    exact List.nodup_nil

theorem block_of_argument (h : b.Lowerable) (hmem : insn ∈ b.instructionsOf k)
    (hargument : insn.operation.isArgument = true) :
    k = entry := by
  refine Classical.byContradiction fun hne => ?_
  rw [h.arguments k (mem_blocks_of_instruction hmem) hne insn hmem] at hargument
  exact Bool.noConfusion hargument

/-- Only a jump leads to exactly one block. -/
theorem endsInJumps (h : b.Lowerable) (c : StackCoding) : PhiMoves.EndsInJumps c b := by
  intro k l hl
  have hk := mem_blocks_of_successor (hl ▸ List.mem_singleton_self l)
  obtain ⟨front, exit, hsplit, -, hout, htargets⟩ := h.split hk
  rw [hl, List.length_singleton] at htargets
  have hgoto : exit.operation = .goto := by
    cases hop : exit.operation <;> simp_all [Operation.targets?]
  refine ⟨front.flatMap (c.translate b) ++ exit.inputs.map (c.pushCommand b),
    exit.inputs.length, false, ?_⟩
  rw [StackCoding.translateBlock, hsplit, List.flatMap_append, List.flatMap_singleton,
    StackCoding.translate_of_exit (by rw [hgoto]; rfl) hout, hgoto, List.append_assoc]

end Body.Lowerable

end Instructions

/-! ### Where values are -/

/-- The arguments of the entry block are the outputs of its argument instructions. -/
theorem Locals.mem_entryArguments {b : Body} {index : Nat} {v : ValueId} :
    (index, v) ∈ Locals.entryArguments b ↔ ∃ i ∈ (b.block Body.entry).instructions,
      (b.instruction i).operation = .argument index ∧ (b.instruction i).output = some v := by
  unfold entryArguments Body.instructionsOf
  rw [List.mem_mergeSort, List.filterMap_map, List.mem_filterMap]
  refine exists_congr fun i => and_congr_right fun _ => ?_
  simp only [Function.comp_apply]
  split
  · rename_i index' hop
    rw [hop, Option.map_eq_some_iff]
    constructor
    · rintro ⟨w, hw, h⟩
      obtain ⟨rfl, rfl⟩ := Prod.mk.inj h
      exact ⟨rfl, hw⟩
    · rintro ⟨h, hw⟩
      obtain rfl := Operation.argument.inj h
      exact ⟨v, hw, rfl⟩
  · rename_i hop
    exact iff_of_false (by simp) fun h => hop index h.1

/-- So the instruction of an argument is known from its output. -/
theorem Locals.operation_of_entryArgument {b : Body} {index : Nat} {i : InsnId} {v : ValueId}
    (hb : b.WellFormed) (hout : (b.instruction i).output = some v)
    (h : (index, v) ∈ Locals.entryArguments b) :
    (b.instruction i).operation = .argument index := by
  obtain ⟨j, -, hop, hj⟩ := mem_entryArguments.1 h
  rwa [hb.output_inj hout hj]

namespace StackCoding

/-- Which values have local variables: the phis, all that is read and not pushed as a constant, and
of the other values only arguments. -/
structure Homes (c : StackCoding) (b : Body) (slot? : ValueId → Option Nat) : Prop where
  injective : ∀ v w n, slot? v = some n → slot? w = some n → v = w
  phi : ∀ k, ∀ p ∈ (b.block k).phis, (slot? p).isSome
  read : ∀ v ∈ b.values, (b.value v).users.isEmpty = false → c.constant? b v = none →
    (slot? v).isSome
  made : ∀ v i, (b.value v).origin = .instruction i → (slot? v).isSome →
    (b.instruction i).operation.isArgument = true ∨ (b.value v).users.isEmpty = false ∧
      c.constant? b v = none

/-- The naive allocation gives homes to what is read, wherever arguments are made in the entry block
only. -/
theorem homes_of_naive {b : Body} {c : StackCoding} {a : Locals} (hb : b.WellFormed)
    (harguments : ∀ i ∈ b.instructions, (b.instruction i).operation.isArgument = true →
      (b.instruction i).block = Body.entry) (h : Locals.naive c.settings b = .ok a) :
    Homes c b a.slot? := by
  obtain ⟨-, hpacked, hplaced⟩ := Locals.naive_ok h
  refine ⟨fun v w n hv hw => hpacked.slot_inj hv hw, fun k p hp => ?_, fun v hv hread hnone => ?_,
    fun v i ho hsome => ?_⟩
  -- phis
  · obtain ⟨operands, ho⟩ := (hb.mem_phis k p).1 hp
    exact (hplaced p).2 (Or.inr ⟨hb.mem_values_of_phi hp, by simp [Locals.needsSlot, ho]⟩)
  -- values that are read: phis and outputs are placed, arguments with the entry block
  · cases ho : (b.value v).origin with
    | phi k operands => exact (hplaced v).2 (Or.inr ⟨hv, by simp [Locals.needsSlot, ho]⟩)
    | stack slot definition => exact absurd ho (hb.not_stack v hv slot definition)
    | instruction i =>
      obtain ⟨hi, hout⟩ := hb.output_of_origin v i ho
      rw [constant?_eq_none_iff ho] at hnone
      cases hargument : (b.instruction i).operation.isArgument with
      | false =>
        refine (hplaced v).2 (Or.inr ⟨hv, ?_⟩)
        simp only [Locals.needsSlot, ho, hread, hargument, hnone, Bool.not_false, Bool.and_self]
      | true =>
        obtain ⟨index, hop⟩ : ∃ index, (b.instruction i).operation = .argument index := by
          cases hop : (b.instruction i).operation <;> simp_all [Operation.isArgument]
        have hentry := harguments i hi hargument
        have hmem := Locals.mem_entryArguments.2
          ⟨i, (hb.mem_instructions _ i).2 ⟨hi, hentry⟩, hop, hout⟩
        exact (hplaced v).2 (Or.inl (List.mem_map_of_mem hmem))
  -- what has been placed is an argument, or it was needed
  · obtain ⟨hi, hout⟩ := hb.output_of_origin v i ho
    rw [constant?_eq_none_iff ho]
    rcases (hplaced v).1 hsome with hargument | ⟨-, hneeded⟩
    · obtain ⟨⟨index, w⟩, hmem, rfl⟩ := List.mem_map.1 hargument
      exact Or.inl (by rw [Locals.operation_of_entryArgument hb hout hmem]; rfl)
    · simp only [Locals.needsSlot, ho, Bool.and_eq_true, Bool.not_eq_true'] at hneeded
      exact Or.inr ⟨hneeded.1.1, hneeded.2⟩

theorem naive_homes {b : Body} {c : StackCoding} {a : Locals} (hb : b.WellFormed) (hl : b.Lowerable)
    (h : Locals.naive c.settings b = .ok a) : Homes c b a.slot? :=
  homes_of_naive hb
    (fun _ hi hargument => hl.block_of_argument (hb.mem_instructionsOf hi) hargument) h

/-! ### Values in local variables -/

section Simulation

open StackMachine ValueGraph PhiMoves

variable {V S : Type} {I : Interpretation V S} {c : StackCoding} {b b' : Body}
  {slot? : ValueId → Option Nat} {arguments : Nat → V} {env : ValueId → Option V}
  {locals locals' : Nat → Option V} {state state' : S} {stack : List V} {rest : List Command}
  {k l : BlockId} {i : InsnId} {insn : Instruction} {v : ValueId} {x : V} {xs : List V}
  {ms : List PhiMove}

/-- Local variables that go with the values that have been assigned. Those of arguments hold them
from the start. -/
structure Agrees (I : Interpretation V S) (c : StackCoding) (b : Body)
    (slot? : ValueId → Option Nat) (arguments : Nat → V) (env : ValueId → Option V)
    (locals : Nat → Option V) : Prop where
  constant : ∀ v constant x, c.constant? b v = some constant → env v = some x →
    x = I.constant constant
  held : ∀ v n x, slot? v = some n → env v = some x → locals n = some x
  arguments : ∀ index v n, (index, v) ∈ Locals.entryArguments b → slot? v = some n →
    locals n = some (arguments index)

/-- A value is assigned, and no local variable but its own changes. -/
theorem Agrees.assign (h : Agrees I c b slot? arguments env locals)
    (hconstant : ∀ constant, c.constant? b v = some constant → x = I.constant constant)
    (hargument : ∀ index, (index, v) ∈ Locals.entryArguments b → x = arguments index)
    (hheld : ∀ n, slot? v = some n → locals' n = some x)
    (hothers : ∀ w n, w ≠ v → slot? w = some n → locals' n = locals n) :
    Agrees I c b slot? arguments (Function.update env v (some x)) locals' := by
  refine ⟨fun w constant y hw hy => ?_, fun w n y hn hy => ?_, fun index w n hw hn => ?_⟩
  -- constants, then what local variables hold, then the arguments in theirs
  · by_cases hwv : w = v
    · subst hwv
      rw [Function.update_self] at hy
      rw [← Option.some.inj hy]
      exact hconstant constant hw
    · rw [Function.update_of_ne hwv] at hy
      exact h.constant w constant y hw hy
  · by_cases hwv : w = v
    · subst hwv
      rw [Function.update_self] at hy
      rw [hheld n hn, hy]
    · rw [Function.update_of_ne hwv] at hy
      rw [hothers w n hwv hn]
      exact h.held w n y hn hy
  · by_cases hwv : w = v
    · subst hwv
      rw [hheld n hn, hargument index hw]
    · rw [hothers w n hwv hn]
      exact h.arguments index w n hw hn

/-- The phis of a block are assigned, and their local variables hold the operands for the edge. -/
theorem Agrees.enter (hb : b.WellFormed) (homes : Homes c b slot?)
    (h : Agrees I c b slot? arguments env locals) {position : Nat}
    (hserves : Serves b slot? l position ms)
    (hmoved : ∀ m ∈ ms, ∀ n, slot? m.phi = some n → locals' n = env m.operand)
    (hothers : ∀ n, (∀ m ∈ ms, slot? m.phi ≠ some n) → locals' n = locals n) :
    Agrees I c b slot? arguments (b.enter env l position) locals' := by
  -- what is not moved to keeps its words, since no two values share a local variable
  have hunmoved : ∀ w n, slot? w = some n → (∀ m ∈ ms, m.phi ≠ w) → locals' n = locals n := by
    intro w n hn hw
    exact hothers n fun m hm hslot => hw m hm (homes.injective _ _ n hslot hn)
  have hother : ∀ w n, slot? w = some n → w ∉ (b.block l).phis → locals' n = locals n := by
    intro w n hn hw
    exact hunmoved w n hn fun m hm hphi => hw (hphi ▸ (hserves.sound m hm).1)
  refine ⟨fun w constant y hw hy => ?_, fun w n y hn hy => ?_, fun index w n hw hn => ?_⟩
  · have hphi : w ∉ (b.block l).phis := by
      intro hp
      obtain ⟨operands, ho⟩ := (hb.mem_phis l w).1 hp
      rw [constant?_of_phi ho] at hw
      simp at hw
    rw [Body.enter, if_neg hphi] at hy
    exact h.constant w constant y hw hy
  · by_cases hp : w ∈ (b.block l).phis
    · rw [Body.enter, if_pos hp] at hy
      obtain ⟨u, hu, hy⟩ := Option.bind_eq_some_iff.1 hy
      -- a phi without a move is in the local variable of its operand, which is not moved to
      by_cases hmem : (⟨w, u⟩ : PhiMove) ∈ ms
      · rw [hmoved _ hmem n hn, hy]
      · obtain ⟨n', hw', hu'⟩ := (hserves.complete w hp u hu).resolve_left hmem
        obtain rfl : n = n' := Option.some.inj (hn.symm.trans hw')
        rw [hunmoved w n hn, h.held u n y hu' hy]
        rintro ⟨p, operand⟩ hm rfl
        obtain rfl : operand = u := Option.some.inj ((hserves.sound _ hm).2.symm.trans hu)
        exact hmem hm
    · rw [Body.enter, if_neg hp] at hy
      rw [hother w n hn hp]
      exact h.held w n y hn hy
  · rw [hother w n hn, h.arguments index w n hw hn]
    intro hp
    obtain ⟨operands, ho⟩ := (hb.mem_phis l w).1 hp
    obtain ⟨j, -, -, hout⟩ := Locals.mem_entryArguments.1 hw
    exact Origin.noConfusion (ho.symm.trans (hb.origin_of_output j w hout).2)

/-! ### Runs of the commands -/

theorem step_push (homes : Homes c b slot?) (h : Agrees I c b slot? arguments env locals)
    (hv : v ∈ b.values) (hread : (b.value v).users.isEmpty = false) (hx : env v = some x) :
    StackMachine.step I b' slot? ⟨.running k (c.pushCommand b v :: rest), stack, locals, state⟩ =
      some ⟨.running k rest, x :: stack, locals, state⟩ := by
  unfold pushCommand
  cases hc : c.constant? b v with
  | some constant =>
    rw [h.constant v constant x hc hx]
    exact step_constant [] true
  | none =>
    obtain ⟨n, hn⟩ := Option.isSome_iff_exists.1 (homes.read v hv hread hc)
    exact step_load hn (h.held v n x hn hx)

theorem runs_pushes (homes : Homes c b slot?) (h : Agrees I c b slot? arguments env locals)
    {vs : List ValueId} (hvs : ∀ v ∈ vs, v ∈ b.values ∧ (b.value v).users.isEmpty = false)
    (hreads : Reads env vs xs) :
    Runs I b' slot? ⟨.running k (vs.map (c.pushCommand b) ++ rest), stack, locals, state⟩
      ⟨.running k rest, xs.reverse ++ stack, locals, state⟩ := by
  induction hreads generalizing stack with
  | nil => exact .refl
  | cons hx _ ih =>
    obtain ⟨hv, hread⟩ := hvs _ List.mem_cons_self
    rw [List.reverse_cons, List.append_assoc]
    exact .head (step_push homes h hv hread hx) (ih fun v hv => hvs v (List.mem_cons_of_mem _ hv))

/-- Moves that can be made: operands are there to be pushed, and phis have local variables. -/
def Ready (b : Body) (slot? : ValueId → Option Nat) (env : ValueId → Option V)
    (ms : List PhiMove) : Prop :=
  ∀ m ∈ ms, m.operand ∈ b.values ∧ (b.value m.operand).users.isEmpty = false ∧
    (env m.operand).isSome ∧ (slot? m.phi).isSome

/-- Moves act as one: each phi gets what its operand was before any of them. -/
theorem runs_moves (homes : Homes c b slot?) (h : Agrees I c b slot? arguments env locals)
    (hready : Ready b slot? env ms) (hnodup : (ms.map PhiMove.phi).Nodup) (stack : List V)
    (rest : List Command) :
    ∃ locals', Runs I b' slot? ⟨.running k (commands c b ms ++ rest), stack, locals, state⟩
        ⟨.running k rest, stack, locals', state⟩ ∧
      (∀ m ∈ ms, ∀ n, slot? m.phi = some n → locals' n = env m.operand) ∧
      ∀ n, (∀ m ∈ ms, slot? m.phi ≠ some n) → locals' n = locals n := by
  -- the operand of the first move stays on the stack until the other moves are done
  induction ms generalizing stack rest with
  | nil => exact ⟨locals, .refl, fun m hm => absurd hm List.not_mem_nil, fun _ _ => rfl⟩
  | cons m ms ih =>
    obtain ⟨hv, hread, hx, hn⟩ := hready m List.mem_cons_self
    obtain ⟨x, hx⟩ := Option.isSome_iff_exists.1 hx
    obtain ⟨n, hn⟩ := Option.isSome_iff_exists.1 hn
    obtain ⟨hm, hnodup'⟩ := List.nodup_cons.1 hnodup
    obtain ⟨locals₁, hrun, hmoved, hothers⟩ :=
      ih (fun m' hm' => hready m' (List.mem_cons_of_mem m hm')) hnodup' (x :: stack)
        (.store m.phi :: rest)
    have hcommands : commands c b (m :: ms) ++ rest = c.pushCommand b m.operand ::
        (commands c b ms ++ .store m.phi :: rest) := by
      simp [commands]
    have hdistinct : ∀ m' ∈ ms, slot? m'.phi ≠ some n := by
      intro m' hm' hn'
      exact hm (homes.injective _ _ n hn hn' ▸ List.mem_map_of_mem hm')
    refine ⟨Function.update locals₁ n (some x), ?_, fun m' hm' n' hn' => ?_, fun n' hn' => ?_⟩
    · rw [hcommands]
      exact .head (step_push homes h hv hread hx) (hrun.tail (step_store hn))
    · rcases List.mem_cons.1 hm' with rfl | hm'
      · obtain rfl : n = n' := Option.some.inj (hn.symm.trans hn')
        rw [Function.update_self, hx]
      · have hne : n' ≠ n := fun h => hdistinct m' hm' (h ▸ hn')
        rw [Function.update_of_ne hne]
        exact hmoved m' hm' n' hn'
    · have hne : n' ≠ n := fun h => hn' m List.mem_cons_self (h ▸ hn)
      rw [Function.update_of_ne hne]
      exact hothers n' fun m' hm' => hn' m' (List.mem_cons_of_mem m hm')

theorem isEmpty_users_of_input (hb : b.WellFormed) (hv : v ∈ (b.instruction i).inputs) :
    (b.value v).users.isEmpty = false := by
  rw [Bool.eq_false_iff, ne_eq, Users.isEmpty_iff, not_not]
  exact Or.inl ⟨i, (hb.mem_readers v i).2 hv⟩

theorem isEmpty_users_of_operand (hb : b.WellFormed) {p : ValueId} (hv : v ∈ b.operands p) :
    (b.value v).users.isEmpty = false := by
  rw [Bool.eq_false_iff, ne_eq, Users.isEmpty_iff, not_not]
  exact Or.inr ⟨p, (hb.mem_phiReaders v p).2 hv⟩

theorem runs_inputs (hb : b.WellFormed) (homes : Homes c b slot?)
    (h : Agrees I c b slot? arguments env locals) (hreads : Reads env (b.instruction i).inputs xs) :
    Runs I b' slot? ⟨.running k ((b.instruction i).inputs.map (c.pushCommand b) ++ rest),
      stack, locals, state⟩
      ⟨.running k rest, xs.reverse ++ stack, locals, state⟩ :=
  runs_pushes homes h (fun v hv => ⟨hb.inputs_mem i v hv, isEmpty_users_of_input hb hv⟩) hreads

/-- An output that is not an argument of the entry block. -/
theorem notMem_entryArguments (hb : b.WellFormed)
    (hargument : (b.instruction i).operation.isArgument = false)
    (hout : (b.instruction i).output = some v) (index : Nat) :
    (index, v) ∉ Locals.entryArguments b := by
  intro hmem
  rw [Locals.operation_of_entryArgument hb hout hmem] at hargument
  exact Bool.noConfusion hargument

/-- An instruction that is not dropped runs like its operation, once its output is in its local
variable. -/
theorem runs_translate (hb : b.WellFormed) (homes : Homes c b slot?)
    (h : Agrees I c b slot? arguments env locals)
    (hop : (b.instruction i).operation ∉ [.load, .store, .pop])
    (hargument : (b.instruction i).operation.isArgument = false)
    (hdropped : c.isDropped b (b.instruction i) = false)
    (hreads : Reads env (b.instruction i).inputs xs)
    (hact : ∀ pushes rest, StackMachine.step I b' slot?
      ⟨.running k (.act (b.instruction i).operation xs.length pushes :: rest), xs.reverse ++ [],
        locals, state⟩ =
        some ⟨.running k rest, if pushes then [x] else [], locals, state'⟩) (rest : List Command) :
    ∃ locals', Runs I b' slot? ⟨.running k (c.translate b (b.instruction i) ++ rest),
      [], locals, state⟩
        ⟨.running k rest, [], locals', state'⟩ ∧
      Agrees I c b slot? arguments (assign env (b.instruction i).output x) locals' := by
  have hlength : (b.instruction i).inputs.length = xs.length := hreads.length_eq
  unfold translate
  simp only [hargument, hdropped, Bool.false_eq_true, if_false, List.append_assoc, List.cons_append]
  rw [Instruction.command_of_act hop hargument, hlength]
  cases hout : (b.instruction i).output with
  | none => exact ⟨locals, (runs_inputs hb homes h hreads).tail (hact false rest), h⟩
  | some v =>
    rw [Option.toList_some, List.map_singleton, List.singleton_append]
    obtain ⟨hv, horigin⟩ := hb.origin_of_output i v hout
    have hconstant := constant?_of_output hb hout hdropped
    have hrun := (runs_inputs hb homes h hreads).tail
      (hact true ((if (b.value v).users.isEmpty then .drop else .store v) :: rest))
    -- the output is no constant and no argument, so only its local variable has to hold it
    have hassign : ∀ locals', (∀ n, slot? v = some n → locals' n = some x) →
        (∀ w n, w ≠ v → slot? w = some n → locals' n = locals n) →
        Agrees I c b slot? arguments (Function.update env v (some x)) locals' := fun _ =>
      h.assign (fun constant hc => absurd (hconstant.symm.trans hc) (by simp)) fun index hmem =>
        absurd hmem (notMem_entryArguments hb hargument hout index)
    cases hempty : (b.value v).users.isEmpty with
    -- an output that is not read has no local variable, and is taken off the stack
    | true =>
      rw [hempty] at hrun
      refine ⟨locals, hrun.tail step_drop, hassign locals (fun n hn => ?_) fun _ _ _ _ => rfl⟩
      rcases homes.made v i horigin (by simp [hn]) with hargument' | ⟨hread, -⟩
      · exact absurd (hargument'.symm.trans hargument) Bool.noConfusion
      · exact absurd (hread.symm.trans hempty) Bool.noConfusion
    -- an output that is read has one, which no other value has
    | false =>
      rw [hempty] at hrun
      obtain ⟨n, hn⟩ := Option.isSome_iff_exists.1 (homes.read v hv hempty hconstant)
      refine ⟨Function.update locals n (some x), hrun.tail (step_store hn),
        hassign _ (fun n' hn' => ?_) fun w n' hw hn' => ?_⟩
      · obtain rfl : n = n' := Option.some.inj (hn.symm.trans hn')
        exact Function.update_self ..
      · have hne : n' ≠ n := fun h => hw (homes.injective w v n (h ▸ hn') hn)
        exact Function.update_of_ne hne ..

/-- An argument is in its local variable already. -/
theorem runs_argument (hb : b.WellFormed) (hl : b.Lowerable)
    (h : Agrees I c b slot? arguments env locals) {index : Nat} (hi : i ∈ (b.block k).instructions)
    (hop : (b.instruction i).operation = .argument index) (rest : List Command) :
    Runs I b' slot? ⟨.running k (c.translate b (b.instruction i) ++ rest), [], locals, state⟩
      ⟨.running k rest, [], locals, state⟩ ∧
      Agrees I c b slot? arguments
        (assign env (b.instruction i).output (arguments index)) locals := by
  have hmem : b.instruction i ∈ b.instructionsOf k := List.mem_map_of_mem hi
  have htranslate : c.translate b (b.instruction i) = [.skip] := by
    simp [translate, Instruction.command, hop, Operation.isArgument]
  refine ⟨htranslate ▸ .single step_skip, ?_⟩
  cases hout : (b.instruction i).output with
  | none => exact h
  | some v =>
    have horigin := (hb.origin_of_output i v hout).2
    refine h.assign (fun constant hc => ?_) (fun index' hmem' => ?_) (fun n hn => ?_)
      fun _ _ _ _ => rfl
    · simp [constant?_of_instruction horigin, hop, Operation.constant?] at hc
    · rw [Operation.argument.inj (hop.symm.trans (Locals.operation_of_entryArgument hb hout hmem'))]
    · obtain rfl := hl.block_of_argument hmem (by rw [hop]; rfl)
      exact h.arguments index v n (Locals.mem_entryArguments.2 ⟨i, hi, hop, hout⟩) hn

/-- A constant that is dropped is pushed wherever it is read. -/
theorem runs_dropped (hb : b.WellFormed) (homes : Homes c b slot?)
    (h : Agrees I c b slot? arguments env locals) {constant : Constant}
    (hop : (b.instruction i).operation = .constant constant)
    (hdropped : c.isDropped b (b.instruction i) = true) (rest : List Command) :
    c.translate b (b.instruction i) ++ rest = rest ∧
      Agrees I c b slot? arguments
        (assign env (b.instruction i).output (I.constant constant)) locals := by
  have hargument : (b.instruction i).operation.isArgument = false := by
    rw [hop]
    rfl
  refine ⟨by simp [translate, hargument, hdropped], ?_⟩
  rw [isDropped_eq hb (Kept.refl c b), Bool.and_eq_true] at hdropped
  cases hout : (b.instruction i).output with
  | none => exact h
  | some v =>
    have horigin := (hb.origin_of_output i v hout).2
    have hconstant : c.constant? b v = some constant := by
      rw [constant?_of_instruction horigin, if_pos hdropped.2, hop]
      rfl
    refine h.assign (fun constant' hc => ?_) (fun index hmem => ?_) (fun n hn => ?_)
      fun _ _ _ _ => rfl
    · rw [Option.some.inj (hconstant.symm.trans hc)]
    · exact absurd hmem (notMem_entryArguments hb hargument hout index)
    · rcases homes.made v i horigin (by simp [hn]) with hargument' | ⟨-, hnone⟩
      · exact absurd (hargument'.symm.trans hargument) Bool.noConfusion
      · exact absurd (hnone.symm.trans hconstant) (by simp)

/-! ### The two executions -/

/-- Where two executions are together: before the same instructions of a block, with the moves out
of it to come, or at the same end. -/
inductive Follows (c : StackCoding) (b : Body) (slot? : ValueId → Option Nat) :
    Control Instruction V → Control Command V → Prop
  | running {k : BlockId} {rest : List Instruction} {ms : List PhiMove}
      (suffix : rest <:+ b.instructionsOf k)
      (moved : ms ≠ [] → ∃ l, (b.block k).successors = [l])
      (serves : ∀ l ∈ (b.block k).successors,
        Serves b slot? l ((b.block l).predecessors.idxOf k) ms) :
      Follows c b slot? (.running k rest)
        (.running k (withMoves c b (rest.flatMap (c.translate b)) ms))
  | finished (operation : Operation) (inputs : List V) :
      Follows c b slot? (.finished operation inputs) (.finished operation inputs)

/-- Two executions that go together. -/
structure Simulates (I : Interpretation V S) (c : StackCoding) (b : Body)
    (slot? : ValueId → Option Nat) (arguments : Nat → V) (s : ValueGraph.Config V S)
    (d : StackMachine.Config V S) : Prop where
  control : Follows c b slot? s.control d.control
  stack : d.stack = []
  state : d.state = s.state
  agrees : Agrees I c b slot? arguments s.env d.locals

/-- What the stack code has still to do while the body runs. -/
theorem Simulates.running {rest : List Instruction} {d : StackMachine.Config V S}
    (h : Simulates I c b slot? arguments ⟨.running k rest, env, state⟩ d) :
    ∃ ms locals, d = ⟨.running k (withMoves c b (rest.flatMap (c.translate b)) ms), [],
      locals, state⟩ ∧
      rest <:+ b.instructionsOf k ∧ (ms ≠ [] → ∃ l, (b.block k).successors = [l]) ∧
      (∀ l ∈ (b.block k).successors, Serves b slot? l ((b.block l).predecessors.idxOf k) ms) ∧
      Agrees I c b slot? arguments env locals := by
  obtain ⟨control, stack, locals, state⟩ := d
  obtain ⟨hcontrol, rfl, rfl, hagrees⟩ := h
  cases hcontrol with
  | running suffix moved serves => exact ⟨_, locals, rfl, suffix, moved, serves, hagrees⟩

/-- An instruction of a block is its exit, or comes before it. -/
theorem exit_or_inner (c : StackCoding) (hl : b.Lowerable) {rest : List Instruction}
    (hsuffix : insn :: rest <:+ b.instructionsOf k) :
    (rest = [] ∧ insn.output = none ∧
      insn.operation.targets? = some (b.block k).successors.length) ∨
      insn.operation.isExit = false ∧ rest.flatMap (c.translate b) ≠ [] := by
  obtain ⟨front, hsplit⟩ := hsuffix
  have hmem : insn ∈ b.instructionsOf k := by simp [← hsplit]
  obtain ⟨inner, exit, hends, hinner, hout, htargets⟩ :=
    hl.split (Body.mem_blocks_of_instruction hmem)
  rcases List.eq_nil_or_concat' rest with rfl | ⟨rest, last, rfl⟩
  · have hlast := (List.append_inj' (hsplit.trans hends) rfl).2
    obtain rfl := List.singleton_inj.1 hlast
    exact Or.inl ⟨rfl, hout, htargets⟩
  · have hsplit' : (front ++ insn :: rest) ++ [last] = b.instructionsOf k := by simp [← hsplit]
    obtain ⟨rfl, hlast⟩ := List.append_inj' (hsplit'.trans hends) rfl
    obtain rfl := List.singleton_inj.1 hlast
    refine Or.inr ⟨hinner insn (by simp), ?_⟩
    simp [translate_of_exit (Operation.isExit_of_targets? htargets) hout]

theorem withMoves_append_of_ne_nil {xs ys : List Command} (hxs : xs ≠ []) :
    withMoves c b (ys ++ xs) ms = ys ++ withMoves c b xs ms := by
  obtain ⟨front, exit, rfl⟩ := (List.eq_nil_or_concat' xs).resolve_left hxs
  rw [← List.append_assoc, withMoves_append, withMoves_append]
  simp

/-- Both executions enter a block. -/
theorem follows_entry (hr : Resolving c b slot? (fun _ _ => True) b') (hk : k ∈ b.blocks) :
    Follows (V := V) c b slot? (.running k (b.instructionsOf k)) (.running k (code b' k)) := by
  obtain ⟨ms, hcode, hmoved, hserves⟩ := hr.code k hk
  have hcode' : code b' k = withMoves c b ((b.instructionsOf k).flatMap (c.translate b)) ms := by
    rw [← translateBlock, ← hcode.2, code, Body.instructionsOf, List.map_map]
    rfl
  rw [hcode']
  refine .running List.suffix_rfl (fun hne => ?_) fun l hl => hserves l hl trivial
  obtain ⟨l, hl, -⟩ := hmoved hne
  exact ⟨l, hl⟩

/-- An instruction before the exit of its block. -/
theorem simulates_inner {env' : ValueId → Option V} {rest : List Instruction}
    {d : StackMachine.Config V S}
    (hsim : Simulates I c b slot? arguments ⟨.running k (insn :: rest), env, state⟩ d)
    (hrest : rest.flatMap (c.translate b) ≠ [])
    (hruns : ∀ locals, Agrees I c b slot? arguments env locals → ∀ more, ∃ locals',
      Runs I b' slot? ⟨.running k (c.translate b insn ++ more), [], locals, state⟩
        ⟨.running k more, [], locals', state'⟩ ∧
        Agrees I c b slot? arguments env' locals') :
    ∃ d', Runs I b' slot? d d' ∧
      Simulates I c b slot? arguments ⟨.running k rest, env', state'⟩ d' := by
  obtain ⟨ms, locals, rfl, hsuffix, hmoved, hserves, hagrees⟩ := hsim.running
  rw [List.flatMap_cons, withMoves_append_of_ne_nil hrest]
  obtain ⟨locals', hrun, hagrees'⟩ := hruns locals hagrees _
  exact ⟨_, hrun, .running ((List.suffix_cons insn rest).trans hsuffix) hmoved hserves,
    rfl, rfl, hagrees'⟩

theorem mem_successors_of_target? {successors : List BlockId} {operation : Operation}
    (h : I.target? successors operation xs state = some l) : l ∈ successors := by
  unfold Interpretation.target? at h
  split at h
  · exact List.mem_of_getElem? h
  · split at h
    · exact List.mem_of_getElem? h
    · exact List.mem_of_getElem? h
  · simp at h

/-- An exit that leads nowhere has no successors. -/
theorem successors_of_target?_eq_none {successors : List BlockId} {operation : Operation}
    (htargets : operation.targets? = some successors.length)
    (h : I.target? successors operation xs state = none) :
    successors = [] := by
  cases operation <;> simp only [Operation.targets?, Option.some.injEq, reduceCtorEq] at htargets
  case goto =>
    have hlength : successors.length ≤ 0 := List.getElem?_eq_none_iff.1 h
    omega
  case branch condition =>
    simp only [Interpretation.target?] at h
    split at h
    · have hlength := List.getElem?_eq_none_iff.1 h
      omega
    · have hlength := List.getElem?_eq_none_iff.1 h
      omega
  case ret => exact List.length_eq_zero_iff.1 htargets.symm
  case raise => exact List.length_eq_zero_iff.1 htargets.symm

/-- The exit of a block up to its operation: the moves on the edge are made while its inputs are on
the stack. -/
theorem runs_exit (hb : b.WellFormed) (homes : Homes c b slot?)
    (h : Agrees I c b slot? arguments env locals)
    (hexit : (b.instruction i).operation.isExit = true) (hout : (b.instruction i).output = none)
    (hreads : Reads env (b.instruction i).inputs xs) (hready : Ready b slot? env ms)
    (hnodup : (ms.map PhiMove.phi).Nodup) :
    ∃ locals', Runs I b' slot?
      ⟨.running k (withMoves c b ([b.instruction i].flatMap (c.translate b)) ms), [], locals, state⟩
        ⟨.running k [.act (b.instruction i).operation xs.length false], xs.reverse ++ [],
          locals', state⟩ ∧
      (∀ m ∈ ms, ∀ n, slot? m.phi = some n → locals' n = env m.operand) ∧
      ∀ n, (∀ m ∈ ms, slot? m.phi ≠ some n) → locals' n = locals n := by
  have hlength : (b.instruction i).inputs.length = xs.length := hreads.length_eq
  rw [List.flatMap_singleton, translate_of_exit hexit hout, withMoves_append, hlength,
    List.append_assoc]
  obtain ⟨locals', hrun, hmoved⟩ := runs_moves homes h hready hnodup (xs.reverse ++ [])
    [.act (b.instruction i).operation xs.length false]
  exact ⟨locals', (runs_inputs hb homes h hreads).trans hrun, hmoved⟩

theorem simulates_jump (hb : b.WellFormed) (homes : Homes c b slot?)
    (hr : Resolving c b slot? (fun _ _ => True) b') {env' : ValueId → Option V}
    {d : StackMachine.Config V S}
    (hsim : Simulates I c b slot? arguments ⟨.running k [b.instruction i], env, state⟩ d)
    (hexit : (b.instruction i).operation.isExit = true) (hout : (b.instruction i).output = none)
    (hreads : Reads env (b.instruction i).inputs xs)
    (htarget : I.target? (b.block k).successors (b.instruction i).operation xs state = some l)
    (henter : enter? b env k l = some env') :
    ∃ d', Runs I b' slot? d d' ∧
      Simulates I c b slot? arguments ⟨.running l (b.instructionsOf l), env',
        (I.perform (b.instruction i).operation xs state).2⟩ d' := by
  obtain ⟨ms, locals, rfl, -, -, hserves, hagrees⟩ := hsim.running
  have hl := mem_successors_of_target? htarget
  have hs := hserves l hl
  unfold enter? at henter
  simp only [Option.ite_none_right_eq_some, List.all_eq_true, Option.some.injEq] at henter
  obtain ⟨hassigned, rfl⟩ := henter
  -- all operands of the phis have been assigned, or the edge could not be taken
  have hready : Ready b slot? env ms := by
    intro m hm
    obtain ⟨hphi, hoperand⟩ := hs.sound m hm
    have hmem := List.mem_of_getElem? hoperand
    refine ⟨hb.operands_mem m.phi _ hmem, isEmpty_users_of_operand hb hmem, ?_,
      homes.phi l m.phi hphi⟩
    have hsome := hassigned m.phi hphi
    rwa [Body.enter, if_pos hphi, hoperand, Option.bind_some] at hsome
  obtain ⟨locals', hrun, hmoved, hothers⟩ :=
    runs_exit hb homes hagrees hexit hout hreads hready hs.nodup
  refine ⟨⟨.running l (code b' l), [], locals', _⟩, hrun.tail ?_,
    follows_entry hr (hb.successors_mem k l hl), rfl, rfl, hagrees.enter hb homes hs hmoved hothers⟩
  rw [step_act (Operation.of_isExit hexit).2.2, if_pos hexit, hr.kept.successors, htarget]

theorem simulates_finish (hb : b.WellFormed) (homes : Homes c b slot?)
    (hr : Resolving c b slot? (fun _ _ => True) b') {d : StackMachine.Config V S}
    (hsim : Simulates I c b slot? arguments ⟨.running k [b.instruction i], env, state⟩ d)
    (htargets : (b.instruction i).operation.targets? = some (b.block k).successors.length)
    (hout : (b.instruction i).output = none) (hreads : Reads env (b.instruction i).inputs xs)
    (htarget : I.target? (b.block k).successors (b.instruction i).operation xs state = none) :
    ∃ d', Runs I b' slot? d d' ∧ Simulates I c b slot? arguments
      ⟨.finished (b.instruction i).operation xs, env,
        (I.perform (b.instruction i).operation xs state).2⟩ d' := by
  obtain ⟨ms, locals, rfl, -, hmoved, -, hagrees⟩ := hsim.running
  have hexit := Operation.isExit_of_targets? htargets
  obtain rfl : ms = [] := by
    refine Classical.byContradiction fun hne => ?_
    obtain ⟨l, hl⟩ := hmoved hne
    rw [successors_of_target?_eq_none htargets htarget] at hl
    simp at hl
  obtain ⟨locals', hrun, -, hothers⟩ := runs_exit hb homes hagrees hexit hout hreads
    (fun m hm => absurd hm List.not_mem_nil) List.nodup_nil
  obtain rfl : locals' = locals := funext fun n => hothers n fun m hm => absurd hm List.not_mem_nil
  refine ⟨⟨.finished (b.instruction i).operation xs, [], locals', _⟩, hrun.tail ?_, .finished _ _,
    rfl, rfl, hagrees⟩
  rw [step_act (Operation.of_isExit hexit).2.2, if_pos hexit, hr.kept.successors, htarget]

/-- **Each step over the values is followed by steps of the stack code.** -/
theorem simulates_step (hb : b.WellFormed) (hl : b.Lowerable) (homes : Homes c b slot?)
    (hr : Resolving c b slot? (fun _ _ => True) b') {s s' : ValueGraph.Config V S}
    {d : StackMachine.Config V S} (hsim : Simulates I c b slot? arguments s d)
    (hstep : ValueGraph.step I b arguments s = some s') :
    ∃ d', Runs I b' slot? d d' ∧ Simulates I c b slot? arguments s' d' := by
  obtain ⟨k, insn, rest, hcontrol, htransition⟩ := transition_of_step hstep
  obtain ⟨control, env, state⟩ := s
  simp only at hcontrol htransition
  subst hcontrol
  obtain ⟨-, -, -, hsuffix, -⟩ := hsim.running
  have hmem : insn ∈ b.instructionsOf k := hsuffix.subset List.mem_cons_self
  have hop := hl.operations k (Body.mem_blocks_of_instruction hmem) insn hmem
  obtain ⟨i, hi, rfl⟩ := List.mem_map.1 hmem
  -- the last instruction of a block leaves it, and no other one does
  rcases exit_or_inner c hl hsuffix with ⟨rfl, hout, htargets⟩ | ⟨hinner, hrest⟩
  · have hexit := Operation.isExit_of_targets? htargets
    cases htransition with
    | argument operation => simp [operation, Operation.targets?] at htargets
    | constant operation => simp [operation, Operation.targets?] at htargets
    | perform _ _ exit => exact absurd (exit.symm.trans hexit) Bool.noConfusion
    | jump _ reads target entered =>
      exact simulates_jump hb homes hr hsim hexit hout reads target entered
    | finish _ reads target => exact simulates_finish hb homes hr hsim htargets hout reads target
  · cases htransition with
    | argument operation =>
      exact simulates_inner hsim hrest fun locals h more =>
        ⟨locals, runs_argument hb hl h hi operation more⟩
    | @constant constant inputs operation reads =>
      refine simulates_inner hsim hrest fun locals h more => ?_
      cases hdropped : c.isDropped b (b.instruction i) with
      -- a constant that is pushed at each use has no code of its own
      | true =>
        obtain ⟨htranslate, h'⟩ := runs_dropped hb homes h operation hdropped more
        rw [htranslate]
        exact ⟨locals, .refl, h'⟩
      | false =>
        refine runs_translate hb homes h hop (by rw [operation]; rfl) hdropped reads
          (fun pushes rest => ?_) more
        rw [operation]
        exact step_constant inputs pushes
    | @perform inputs argument constant exit reads =>
      have hdropped : c.isDropped b (b.instruction i) = false := by simp [isDropped, constant]
      refine simulates_inner hsim hrest fun locals h more =>
        runs_translate hb homes h hop argument hdropped reads (fun pushes rest => ?_) more
      rw [step_act constant, if_neg (by simp [exit])]
    | jump exit => exact absurd (exit.symm.trans hinner) Bool.noConfusion
    | finish exit => exact absurd (exit.symm.trans hinner) Bool.noConfusion

/-- Any number of steps. -/
theorem simulates_run (hb : b.WellFormed) (hl : b.Lowerable) (homes : Homes c b slot?)
    (hr : Resolving c b slot? (fun _ _ => True) b') {n : Nat} (run : Nat → ValueGraph.Config V S)
    {d : StackMachine.Config V S} (hsim : Simulates I c b slot? arguments (run 0) d)
    (hrun : ∀ j < n, ValueGraph.step I b arguments (run j) = some (run (j + 1))) :
    ∃ ds : Nat → StackMachine.Config V S, ds 0 = d ∧
      (∀ j < n, Runs I b' slot? (ds j) (ds (j + 1))) ∧
      ∀ j ≤ n, Simulates I c b slot? arguments (run j) (ds j) := by
  induction n generalizing run d with
  | zero =>
    refine ⟨fun _ => d, rfl, fun j hj => absurd hj (Nat.not_lt_zero j), fun j hj => ?_⟩
    rwa [Nat.le_zero.1 hj]
  | succ n ih =>
    obtain ⟨d₁, hruns, hsim₁⟩ := simulates_step hb hl homes hr hsim (hrun 0 n.succ_pos)
    obtain ⟨ds, rfl, hruns', hsims⟩ :=
      ih (fun j => run (j + 1)) hsim₁ fun j hj => hrun (j + 1) (Nat.succ_lt_succ hj)
    refine ⟨fun j => Nat.casesOn j d ds, rfl, fun j hj => ?_, fun j hj => ?_⟩
    · cases j with
      | zero => exact hruns
      | succ j => exact hruns' j (Nat.lt_of_succ_lt_succ hj)
    · cases j with
      | zero => exact hsim
      | succ j => exact hsims j (Nat.le_of_succ_le_succ hj)

end Simulation

end StackCoding

end JvmLowering
