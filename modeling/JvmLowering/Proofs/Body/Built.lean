import JvmLowering.Proofs.Body.Changes

/-!
# Bodies that are built

A body is built from an empty one by adding blocks, edges, instructions, phis and operands of phis.
All that refers to something by index then refers to something that is there, every value has
exactly one place where it is made, and the readers of each value are exactly those that read it.

* `Built`: the bodies that can be built;
* `Built.wellFormed`: what all of them have in common;
* `ofSteps`: a body from a list of steps.
-/

namespace JvmLowering.Body

variable {b b' : Body} {v w p : ValueId} {i j : InsnId} {k l : BlockId}

/-- Bodies that are built step by step. -/
inductive Built : Body → Prop
  | empty (m : MethodId) : Built { method := m }
  | addBlock {b : Body} (built : Built b) : Built b.addBlock.2
  | addEdge {b b' : Body} {source target : BlockId} (built : Built b)
      (added : b.addEdge source target = .ok b') : Built b'
  | append {b b' : Body} {k : BlockId} {operation : Operation} {inputs : List ValueId}
      {out : Option (DeclaredType ClassId)} {i : InsnId} (built : Built b)
      (added : b.append k operation inputs out = .ok (i, b')) : Built b'
  | addPhi {b b' : Body} {k : BlockId} {type : DeclaredType ClassId} {v : ValueId} (built : Built b)
      (added : b.addPhi k type = .ok (v, b')) : Built b'
  | addPhiOperand {b b' : Body} {phi operand : ValueId} (built : Built b)
      (added : b.addPhiOperand phi operand = .ok b') : Built b'
  | setLine {b b' : Body} {i : InsnId} {line : UInt32} (built : Built b)
      (set : b.setLine i line = .ok b') : Built b'

/-- What holds of every body that is built step by step. -/
structure WellFormed (b : Body) : Prop where
  not_stack : ∀ v ∈ b.values, ∀ slot definition, (b.value v).origin ≠ .stack slot definition
  output_of_origin : ∀ v i, (b.value v).origin = .instruction i → i ∈ b.instructions ∧
    (b.instruction i).output = some v
  origin_of_output : ∀ i v, (b.instruction i).output = some v → v ∈ b.values ∧
    (b.value v).origin = .instruction i
  inputs_mem : ∀ i, ∀ v ∈ (b.instruction i).inputs, v ∈ b.values
  mem_instructions : ∀ k i, i ∈ (b.block k).instructions ↔ i ∈ b.instructions ∧
    (b.instruction i).block = k
  instructions_nodup : ∀ k, (b.block k).instructions.Nodup
  mem_phis : ∀ k p, p ∈ (b.block k).phis ↔ ∃ operands, (b.value p).origin = .phi k operands
  phis_nodup : ∀ k, (b.block k).phis.Nodup
  operands_mem : ∀ p, ∀ v ∈ b.operands p, v ∈ b.values
  edges : ∀ k l, (b.block k).successors.count l = (b.block l).predecessors.count k
  successors_mem : ∀ k, ∀ l ∈ (b.block k).successors, l ∈ b.blocks
  mem_readers : ∀ v i, i ∈ (b.value v).users.instructions ↔ v ∈ (b.instruction i).inputs
  mem_phiReaders : ∀ v p, p ∈ (b.value v).users.phis ↔ v ∈ b.operands p

/-! ### Steps that only change edges and lines -/

/-- A step that changes nothing but edges and lines. -/
structure Rewired (b b' : Body) : Prop where
  mem_values : ∀ v, v ∈ b'.values ↔ v ∈ b.values
  value : ∀ v, b'.value v = b.value v
  mem_instructions : ∀ i, i ∈ b'.instructions ↔ i ∈ b.instructions
  operation : ∀ i, (b'.instruction i).operation = (b.instruction i).operation
  inputs : ∀ i, (b'.instruction i).inputs = (b.instruction i).inputs
  output : ∀ i, (b'.instruction i).output = (b.instruction i).output
  block : ∀ i, (b'.instruction i).block = (b.instruction i).block
  instructions : ∀ k, (b'.block k).instructions = (b.block k).instructions
  phis : ∀ k, (b'.block k).phis = (b.block k).phis

theorem WellFormed.rewired (h : b.WellFormed) (hr : Rewired b b')
    (hedges : ∀ k l, (b'.block k).successors.count l = (b'.block l).predecessors.count k)
    (hsucc : ∀ k, ∀ l ∈ (b'.block k).successors, l ∈ b'.blocks) : b'.WellFormed where
  not_stack v hv := by
    rw [hr.value]
    exact h.not_stack v ((hr.mem_values v).1 hv)
  output_of_origin v i hv := by
    rw [hr.value] at hv
    rw [hr.mem_instructions, hr.output]
    exact h.output_of_origin v i hv
  origin_of_output i v hi := by
    rw [hr.output] at hi
    rw [hr.mem_values, hr.value]
    exact h.origin_of_output i v hi
  inputs_mem i v hv := by
    rw [hr.inputs] at hv
    exact (hr.mem_values v).2 (h.inputs_mem i v hv)
  mem_instructions k i := by
    rw [hr.instructions, hr.mem_instructions, hr.block]
    exact h.mem_instructions k i
  instructions_nodup k := by
    rw [hr.instructions]
    exact h.instructions_nodup k
  mem_phis k p := by
    rw [hr.phis, hr.value]
    exact h.mem_phis k p
  phis_nodup k := by
    rw [hr.phis]
    exact h.phis_nodup k
  operands_mem p v hv := by
    unfold operands at hv
    rw [hr.value] at hv
    exact (hr.mem_values v).2 (h.operands_mem p v hv)
  edges := hedges
  successors_mem := hsucc
  mem_readers v i := by
    rw [hr.value, hr.inputs]
    exact h.mem_readers v i
  mem_phiReaders v p := by
    unfold operands
    rw [hr.value, hr.value]
    exact h.mem_phiReaders v p

/-- A new block is as empty as one that is not there. -/
theorem block_addBlock (b : Body) (l : BlockId) : b.addBlock.2.block l = b.block l := by
  have hl := Table.get_push b.blocks {} l
  refine hl.trans ?_
  split
  · rename_i h
    rw [h]
    exact (block_of_notMem (Table.next_notMem b.blocks)).symm
  · rfl

theorem WellFormed.addBlock (h : b.WellFormed) : b.addBlock.2.WellFormed := by
  refine h.rewired ⟨fun _ => Iff.rfl, fun _ => rfl, fun _ => Iff.rfl, fun _ => rfl, fun _ => rfl,
    fun _ => rfl, fun _ => rfl, fun k => by rw [block_addBlock],
    fun k => by rw [block_addBlock]⟩ ?_ ?_
  · intro k l
    rw [block_addBlock, block_addBlock]
    exact h.edges k l
  · intro k l hl
    rw [block_addBlock] at hl
    exact Table.mem_push.2 (Or.inl (h.successors_mem k l hl))

theorem WellFormed.setLine {line : UInt32} (h : b.WellFormed) (hs : b.setLine i line = .ok b') :
    b'.WellFormed := by
  unfold Body.setLine at hs
  split at hs
  · simp at hs
  · simp only [Except.ok.injEq] at hs
    subst hs
    refine h.rewired ⟨fun _ => Iff.rfl, fun _ => rfl, fun _ => Table.mem_modify, fun j => ?_,
      fun j => ?_, fun j => ?_, fun j => ?_, fun _ => rfl, fun _ => rfl⟩ h.edges h.successors_mem
    · exact instruction_modifyInstruction_congr _ _ _ Instruction.operation fun _ => rfl
    · exact instruction_modifyInstruction_congr _ _ _ Instruction.inputs fun _ => rfl
    · exact instruction_modifyInstruction_congr _ _ _ Instruction.output fun _ => rfl
    · exact instruction_modifyInstruction_congr _ _ _ Instruction.block fun _ => rfl

/-- Both ends of a new edge are there, and each block lists the edge on its side. -/
theorem addEdge_ok {source target : BlockId} (h : b.addEdge source target = .ok b') :
    source ∈ b.blocks ∧ target ∈ b.blocks ∧ Rewired b b' ∧ (∀ k, k ∈ b'.blocks ↔ k ∈ b.blocks) ∧
      (∀ k, (b'.block k).successors = (b.block k).successors ++ if k = source then
        [target] else []) ∧
      ∀ k, (b'.block k).predecessors = (b.block k).predecessors ++ if k = target then
        [source] else [] := by
  unfold addEdge at h
  split at h
  · simp at h
  · rename_i ht
    split at h
    · simp at h
    · rename_i hs
      simp only [Except.ok.injEq, Classical.not_not] at h ht hs
      subst h
      -- the source gets a successor and the target a predecessor; they may be one block
      have hblock : ∀ k,
          ((b.modifyBlock target fun x =>
          { x with predecessors := x.predecessors ++ [source] }).modifyBlock source fun x =>
          { x with successors := x.successors ++ [target] }).block k = { b.block k with
            predecessors := (b.block k).predecessors ++ if k = target then [source] else []
            successors := (b.block k).successors ++ if k = source then [target] else [] } := by
        intro k
        have hmem : ∀ f, source ∈ (b.modifyBlock target f).blocks := fun f => Table.mem_modify.2 hs
        rw [block_modifyBlock, block_modifyBlock]
        by_cases hks : k = source <;> by_cases hkt : k = target
        · subst hks
          subst hkt
          simp [hs, hmem]
        · subst hks
          simp [hmem, hkt, Ne.symm hkt]
        · subst hkt
          simp [ht, hks, Ne.symm hks]
        · simp [hks, hkt, Ne.symm hks, Ne.symm hkt]
      exact ⟨hs, ht, ⟨fun _ => Iff.rfl, fun _ => rfl, fun _ => Iff.rfl, fun _ => rfl, fun _ => rfl,
        fun _ => rfl, fun _ => rfl, fun k => by rw [hblock], fun k => by rw [hblock]⟩,
        fun k => Table.mem_modify.trans Table.mem_modify, fun k => by rw [hblock],
        fun k => by rw [hblock]⟩

theorem WellFormed.addEdge {source target : BlockId} (h : b.WellFormed)
    (hadd : b.addEdge source target = .ok b') :
    b'.WellFormed := by
  obtain ⟨hs, ht, hr, hblocks, hsucc, hpred⟩ := addEdge_ok hadd
  refine h.rewired hr ?_ ?_
  · intro k l
    rw [hsucc, hpred, List.count_append, List.count_append, h.edges]
    congr 1
    by_cases hk : k = source
    · by_cases hl : l = target
      · simp [hk, hl]
      · simp [hk, hl, Ne.symm hl]
    · by_cases hl : l = target
      · simp [hk, hl, Ne.symm hk]
      · simp [hk, hl]
  · intro k l hl
    rw [hsucc, List.mem_append] at hl
    refine (hblocks l).2 ?_
    rcases hl with hl | hl
    · exact h.successors_mem k l hl
    · split at hl
      · rw [List.mem_singleton.1 hl]
        exact ht
      · exact absurd hl List.not_mem_nil

/-! ### A new instruction -/

/-- What is there after an instruction has been added at the end of a block. -/
structure Appended (b b' : Body) (k : BlockId) (operation : Operation) (inputs : List ValueId)
    (out : Option (DeclaredType ClassId)) (i : InsnId) : Prop where
  id : i = b.instructions.next
  inputs_mem : ∀ v ∈ inputs, v ∈ b'.values
  mem_values : ∀ v, v ∈ b'.values ↔ v ∈ b.values ∨ v = b.values.next ∧ out.isSome
  origin : ∀ v, (b'.value v).origin = if v = b.values.next ∧ out.isSome then .instruction i
    else (b.value v).origin
  readers : ∀ v j, j ∈ (b'.value v).users.instructions ↔ j = i ∧ v ∈ inputs ∨
    j ∈ (b.value v).users.instructions
  phiReaders : ∀ v, (b'.value v).users.phis = (b.value v).users.phis
  mem_instructions : ∀ j, j ∈ b'.instructions ↔ j ∈ b.instructions ∨ j = i
  instruction : ∀ j, b'.instruction j =
    if j = i then { operation, inputs, output := out.map fun _ => b.values.next, block := k }
      else b.instruction j
  mem_blocks : ∀ l, l ∈ b'.blocks ↔ l ∈ b.blocks
  instructions : ∀ l, (b'.block l).instructions =
    (b.block l).instructions ++ if l = k then [i] else []
  predecessors : ∀ l, (b'.block l).predecessors = (b.block l).predecessors
  successors : ∀ l, (b'.block l).successors = (b.block l).successors
  phis : ∀ l, (b'.block l).phis = (b.block l).phis

/-- The body with the output of the instruction to come. -/
def withOutput (b : Body) (out : Option (DeclaredType ClassId)) : Body :=
  out.elim b fun t => (b.pushValue ⟨.instruction b.instructions.next, t, {}⟩).2

section WithOutput

variable (b) (out : Option (DeclaredType ClassId))

theorem mem_values_withOutput : v ∈ (b.withOutput out).values ↔ v ∈ b.values ∨ v = b.values.next ∧
    out.isSome := by
  cases out with
  | none => simp [withOutput]
  | some t =>
    rw [withOutput, Option.elim_some]
    exact Table.mem_push.trans (by simp)

theorem value_withOutput_origin : ((b.withOutput out).value v).origin =
    if v = b.values.next ∧ out.isSome then .instruction b.instructions.next
      else (b.value v).origin := by
  cases out with
  | none => simp [withOutput]
  | some t =>
    rw [withOutput, Option.elim_some, value_pushValue]
    split <;> simp_all

/-- A value that is not there yet has no readers, and neither has a new one. -/
theorem value_withOutput_users : ((b.withOutput out).value v).users = (b.value v).users := by
  cases out with
  | none => rfl
  | some t =>
    rw [withOutput, Option.elim_some, value_pushValue]
    split
    · rename_i h
      rw [h, value_of_notMem (Table.next_notMem b.values)]
      rfl
    · rfl

theorem instructions_withOutput : (b.withOutput out).instructions = b.instructions := by
  cases out <;> rfl

theorem blocks_withOutput : (b.withOutput out).blocks = b.blocks := by
  cases out <;> rfl

end WithOutput

section Appended

variable {operation : Operation} {inputs : List ValueId} {out : Option (DeclaredType ClassId)}

/-- The body with the output and the instruction, which its block does not list yet. -/
def withInstruction (b : Body) (k : BlockId) (operation : Operation) (inputs : List ValueId)
    (out : Option (DeclaredType ClassId)) : Body :=
  ((b.withOutput out).pushInstruction
    { operation, inputs, output := out.map fun _ => b.values.next, block := k }).2

/-- What is appended has inputs and a block that are there, and is listed last in its block. -/
theorem append_inv (h : b.append k operation inputs out = .ok (i, b')) :
    i = b.instructions.next ∧ (∀ v ∈ inputs, v ∈ (b.withOutput out).values) ∧ k ∈ b.blocks ∧
      b' = (b.withInstruction k operation inputs out).modifyBlock k fun x =>
        { x with instructions := x.instructions ++ [b.instructions.next] } := by
  unfold append at h
  simp only at h
  split at h
  · simp at h
  rename_i hinputs
  change inputs.find? (· ∉ (b.withOutput out).values) = none at hinputs
  split at h
  · simp at h
  rename_i hk
  change ¬ k ∉ (b.withOutput out).blocks at hk
  rw [Classical.not_not, blocks_withOutput] at hk
  have hpushed : ((b.withOutput out).pushInstruction
        { operation, inputs, output := out.map fun _ => b.values.next, block := k }).1 = i ∧
      ((b.withInstruction k operation inputs out).modifyBlock k fun x =>
        { x with instructions := x.instructions ++ [(b.withOutput out).instructions.next] }) = b' :=
    Prod.mk.inj (Except.ok.inj h)
  rw [fst_pushInstruction, instructions_withOutput] at hpushed
  refine ⟨hpushed.1.symm, fun v hv => ?_, hk, hpushed.2.symm⟩
  simpa using List.find?_eq_none.1 hinputs v hv

theorem mem_values_withInstruction : v ∈ (b.withInstruction k operation inputs out).values ↔
    v ∈ b.values ∨ v = b.values.next ∧ out.isSome := by
  rw [withInstruction, mem_values_pushInstruction, mem_values_withOutput]

/-- The output is made by the instruction, as it was to be before. -/
theorem origin_withInstruction : ((b.withInstruction k operation inputs out).value v).origin =
    if v = b.values.next ∧ out.isSome then .instruction b.instructions.next
    else (b.value v).origin := by
  have ho := value_withOutput_origin b out (v := v)
  rw [withInstruction, origin_pushInstruction, instructions_withOutput]
  split
  · rename_i hv
    obtain ⟨t, ht, rfl⟩ := Option.map_eq_some_iff.1 hv.1
    rw [ht] at ho ⊢
    simp only [Option.isSome_some, and_self, if_true] at ho ⊢
    rw [Value.defineBy, ho]
  · exact ho

theorem readers_withInstruction (hin : ∀ v ∈ inputs, v ∈ (b.withOutput out).values) :
    j ∈ ((b.withInstruction k operation inputs out).value v).users.instructions ↔
      j = b.instructions.next ∧ v ∈ inputs ∨ j ∈ (b.value v).users.instructions := by
  rw [withInstruction, mem_readers_pushInstruction, instructions_withOutput, value_withOutput_users]
  exact or_congr_left (and_congr_right fun _ => and_iff_left_of_imp (hin v))

theorem phiReaders_withInstruction :
    ((b.withInstruction k operation inputs out).value v).users.phis = (b.value v).users.phis := by
  rw [withInstruction, phis_pushInstruction, value_withOutput_users]

theorem mem_instructions_withInstruction :
    j ∈ (b.withInstruction k operation inputs out).instructions ↔
    j ∈ b.instructions ∨ j = b.instructions.next := by
  rw [withInstruction, mem_instructions_pushInstruction, instructions_withOutput]

theorem instruction_withInstruction : (b.withInstruction k operation inputs out).instruction j =
    if j = b.instructions.next
    then { operation, inputs, output := out.map fun _ => b.values.next, block := k }
    else b.instruction j := by
  rw [withInstruction, instruction_pushInstruction, instructions_withOutput, Body.instruction,
    instructions_withOutput]
  rfl

theorem mem_blocks_withInstruction : l ∈ (b.withInstruction k operation inputs out).blocks ↔
    l ∈ b.blocks := by
  rw [withInstruction, mem_blocks_pushInstruction, blocks_withOutput]

variable (b k operation inputs out) in
/-- Of a block, at most which instructions of it throw has changed. -/
theorem block_withInstruction (l : BlockId) : ∃ throwing,
    (b.withInstruction k operation inputs out).block l = { b.block l with throwing } := by
  obtain ⟨throwing, hl⟩ := block_pushInstruction (b.withOutput out) l
    { operation, inputs, output := out.map fun _ => b.values.next, block := k }
  refine ⟨throwing, ?_⟩
  rw [withInstruction, hl, block, block, blocks_withOutput]

variable (operation inputs out) in
/-- The block of the instruction lists it last. -/
theorem block_listed (hk : k ∈ b.blocks) (l : BlockId) : ∃ throwing,
    ((b.withInstruction k operation inputs out).modifyBlock k fun x =>
      { x with instructions := x.instructions ++ [b.instructions.next] }).block l =
      { b.block l with
        instructions := (b.block l).instructions ++ if l = k then [b.instructions.next] else []
        throwing } := by
  obtain ⟨throwing, hl⟩ := b.block_withInstruction k operation inputs out l
  refine ⟨throwing, ?_⟩
  rw [block_modifyBlock]
  by_cases hlk : l = k
  · subst hlk
    simp [mem_blocks_withInstruction, hk, hl]
  · simp [hlk, Ne.symm hlk, hl]

theorem append_ok (h : b.append k operation inputs out = .ok (i, b')) :
    Appended b b' k operation inputs out i := by
  obtain ⟨rfl, hin, hk, rfl⟩ := append_inv h
  have hblock := block_listed operation inputs out hk
  exact {
    id := rfl
    inputs_mem := fun v hv => mem_values_withInstruction.2
      ((mem_values_withOutput b out).1 (hin v hv))
    mem_values := fun v => mem_values_withInstruction
    origin := fun v => origin_withInstruction
    readers := fun v j => readers_withInstruction hin
    phiReaders := fun v => phiReaders_withInstruction
    mem_instructions := fun j => mem_instructions_withInstruction
    instruction := fun j => instruction_withInstruction
    mem_blocks := fun l => Table.mem_modify.trans mem_blocks_withInstruction
    instructions := fun l => by
      obtain ⟨throwing, hl⟩ := hblock l
      rw [hl]
    predecessors := fun l => by
      obtain ⟨throwing, hl⟩ := hblock l
      rw [hl]
    successors := fun l => by
      obtain ⟨throwing, hl⟩ := hblock l
      rw [hl]
    phis := fun l => by
      obtain ⟨throwing, hl⟩ := hblock l
      rw [hl] }

namespace Appended

/-- An instruction is added without a change of operands: its output is no phi. -/
theorem operands (h : Appended b b' k operation inputs out i) (p : ValueId) :
    b'.operands p = b.operands p := by
  unfold Body.operands Value.operands
  rw [h.origin]
  by_cases hp : p = b.values.next ∧ out.isSome
  · rw [if_pos hp, hp.1, value_of_notMem (Table.next_notMem b.values)]
    rfl
  · rw [if_neg hp]

theorem notMem (ha : Appended b b' k operation inputs out i) : i ∉ b.instructions :=
  ha.id ▸ Table.next_notMem _

/-- What makes a value has it as its output: the new instruction makes the new value. -/
theorem output_of_origin (ha : Appended b b' k operation inputs out i) (h : b.WellFormed)
    (hv : (b'.value v).origin = .instruction j) :
    j ∈ b'.instructions ∧ (b'.instruction j).output = some v := by
  rw [ha.origin] at hv
  rw [ha.mem_instructions, ha.instruction]
  split at hv
  · rename_i hn
    obtain ⟨t, ht⟩ := Option.isSome_iff_exists.1 hn.2
    rw [← Origin.instruction.inj hv, if_pos rfl, ht, hn.1]
    exact ⟨Or.inr rfl, rfl⟩
  · obtain ⟨hj, hout⟩ := h.output_of_origin v j hv
    have hji : j ≠ i := by
      rintro rfl
      exact ha.notMem hj
    rw [if_neg hji]
    exact ⟨Or.inl hj, hout⟩

/-- An output is made by its instruction: the new value is no output of another one. -/
theorem origin_of_output (ha : Appended b b' k operation inputs out i) (h : b.WellFormed)
    (hj : (b'.instruction j).output = some v) :
    v ∈ b'.values ∧ (b'.value v).origin = .instruction j := by
  rw [ha.instruction] at hj
  rw [ha.mem_values, ha.origin]
  split at hj
  · rename_i hji
    obtain ⟨t, ht, rfl⟩ := Option.map_eq_some_iff.1 hj
    simp [ht, hji]
  · obtain ⟨hv, ho⟩ := h.origin_of_output j v hj
    have hold : ¬ (v = b.values.next ∧ out.isSome) := by
      rintro ⟨rfl, -⟩
      exact Table.next_notMem _ hv
    rw [if_neg hold]
    exact ⟨Or.inl hv, ho⟩

theorem inputs_there (ha : Appended b b' k operation inputs out i) (h : b.WellFormed)
    (hv : v ∈ (b'.instruction j).inputs) : v ∈ b'.values := by
  rw [ha.instruction] at hv
  split at hv
  · exact ha.inputs_mem v hv
  · exact (ha.mem_values v).2 (Or.inl (h.inputs_mem j v hv))

/-- A block lists what is in it: the new instruction is in one block only. -/
theorem mem_listed (ha : Appended b b' k operation inputs out i) (h : b.WellFormed) :
    j ∈ (b'.block l).instructions ↔ j ∈ b'.instructions ∧ (b'.instruction j).block = l := by
  rw [ha.instructions, ha.mem_instructions, ha.instruction, List.mem_append, h.mem_instructions]
  have hi := ha.notMem
  by_cases hji : j = i
  · subst hji
    by_cases hlk : l = k
    · simp [hi, hlk]
    · simp [hi, hlk, Ne.symm hlk]
  · by_cases hlk : l = k <;> simp [hji, hlk]

theorem nodup_listed (ha : Appended b b' k operation inputs out i) (h : b.WellFormed) :
    (b'.block l).instructions.Nodup := by
  rw [ha.instructions]
  split
  · refine List.nodup_append.2 ⟨h.instructions_nodup l, by simp, ?_⟩
    intro j hj j' hj'
    rw [List.mem_singleton.1 hj']
    rintro rfl
    exact ha.notMem ((h.mem_instructions l j).1 hj).1
  · rw [List.append_nil]
    exact h.instructions_nodup l

/-- The phis of a block are those of before, since an output is none. -/
theorem mem_phis (ha : Appended b b' k operation inputs out i) (h : b.WellFormed) :
    p ∈ (b'.block l).phis ↔ ∃ operands, (b'.value p).origin = .phi l operands := by
  rw [ha.phis, ha.origin, h.mem_phis]
  split
  · rename_i hn
    rw [hn.1, value_of_notMem (Table.next_notMem b.values)]
    constructor
    · rintro ⟨operands, ho⟩
      exact Origin.noConfusion ho
    · rintro ⟨operands, ho⟩
      exact Origin.noConfusion ho
  · rfl

/-- An instruction reads its inputs: nothing had been read by the new one. -/
theorem mem_readers (ha : Appended b b' k operation inputs out i) (h : b.WellFormed) :
    j ∈ (b'.value v).users.instructions ↔ v ∈ (b'.instruction j).inputs := by
  rw [ha.readers, ha.instruction, h.mem_readers]
  by_cases hji : j = i
  · subst hji
    rw [instruction_of_notMem ha.notMem]
    simp [default]
  · simp [hji]

end Appended

theorem WellFormed.append (h : b.WellFormed)
    (hadd : b.append k operation inputs out = .ok (i, b')) :
    b'.WellFormed := by
  have ha := append_ok hadd
  exact {
    not_stack := fun v hv slot definition => by
      rw [ha.origin]
      split
      · exact Origin.noConfusion
      · rename_i hn
        exact h.not_stack v (((ha.mem_values v).1 hv).resolve_right hn) slot definition
    output_of_origin := fun v j hv => ha.output_of_origin h hv
    origin_of_output := fun j v hj => ha.origin_of_output h hj
    inputs_mem := fun j v hv => ha.inputs_there h hv
    mem_instructions := fun l j => ha.mem_listed h
    instructions_nodup := fun l => ha.nodup_listed h
    mem_phis := fun l p => ha.mem_phis h
    phis_nodup := fun l => ha.phis l ▸ h.phis_nodup l
    operands_mem :=
      fun p v hv => (ha.mem_values v).2 (Or.inl (h.operands_mem p v (ha.operands p ▸ hv)))
    edges := fun l m => by
      rw [ha.successors, ha.predecessors]
      exact h.edges l m
    successors_mem :=
      fun l m hm => (ha.mem_blocks m).2 (h.successors_mem l m (ha.successors l ▸ hm))
    mem_readers := fun v j => ha.mem_readers h
    mem_phiReaders := fun v p => by
      rw [ha.phiReaders, ha.operands]
      exact h.mem_phiReaders v p }

end Appended

/-! ### A new phi -/

/-- What is there after a phi has been added. -/
structure WithPhi (b b' : Body) (k : BlockId) (p : ValueId) : Prop where
  id : p = b.values.next
  mem_values : ∀ v, v ∈ b'.values ↔ v ∈ b.values ∨ v = p
  origin : ∀ v, (b'.value v).origin = if v = p then .phi k [] else (b.value v).origin
  users : ∀ v, (b'.value v).users = (b.value v).users
  instructions : b'.instructions = b.instructions
  mem_blocks : ∀ l, l ∈ b'.blocks ↔ l ∈ b.blocks
  block : ∀ l, b'.block l = { b.block l with phis := (b.block l).phis ++ if l = k then [p] else [] }

theorem addPhi_ok {type : DeclaredType ClassId} (h : b.addPhi k type = .ok (p, b')) :
    WithPhi b b' k p := by
  unfold addPhi at h
  split at h
  · simp at h
  · rename_i hk
    simp only [Except.ok.injEq, Prod.mk.injEq, Classical.not_not] at h hk
    obtain ⟨rfl, rfl⟩ := h
    refine ⟨rfl, fun v => Table.mem_push, fun v => ?_, fun v => ?_, rfl, fun l => Table.mem_modify,
      fun l => ?_⟩
    · rw [value_modifyBlock, value_pushValue, apply_ite Value.origin]
      rfl
    · rw [value_modifyBlock, value_pushValue]
      split
      · rename_i hv
        rw [hv, value_of_notMem (Table.next_notMem b.values)]
        rfl
      · rfl
    · rw [block_modifyBlock]
      by_cases hlk : l = k
      · subst hlk
        simp [hk, pushValue, block]
      · simp [hlk, Ne.symm hlk]

/-- A new phi has no operands, and neither has what is not there. -/
theorem WithPhi.operands (h : WithPhi b b' k p) (q : ValueId) : b'.operands q = b.operands q := by
  unfold Body.operands Value.operands
  rw [h.origin]
  by_cases hq : q = p
  · rw [if_pos hq, hq, h.id, value_of_notMem (Table.next_notMem b.values)]
    rfl
  · rw [if_neg hq]

namespace WithPhi

theorem notMem (ha : WithPhi b b' k p) : p ∉ b.values := ha.id ▸ Table.next_notMem _

/-- Before it was there, the phi had no block and no operands. -/
theorem not_phi (ha : WithPhi b b' k p) (l : BlockId) (operands : List ValueId) :
    (b.value p).origin ≠ .phi l operands := by
  rw [value_of_notMem ha.notMem]
  exact Origin.noConfusion

theorem instruction (ha : WithPhi b b' k p) (i : InsnId) : b'.instruction i = b.instruction i := by
  rw [Body.instruction, Body.instruction, ha.instructions]

theorem not_stack (ha : WithPhi b b' k p) (h : b.WellFormed) (hv : v ∈ b'.values) (slot : StackSlot)
    (definition : Option InsnId) : (b'.value v).origin ≠ .stack slot definition := by
  rw [ha.origin]
  split
  · exact Origin.noConfusion
  · rename_i hn
    exact h.not_stack v (((ha.mem_values v).1 hv).resolve_right hn) slot definition

theorem output_of_origin (ha : WithPhi b b' k p) (h : b.WellFormed)
    (hv : (b'.value v).origin = .instruction i) :
    i ∈ b'.instructions ∧ (b'.instruction i).output = some v := by
  rw [ha.origin] at hv
  split at hv
  · exact Origin.noConfusion hv
  · rw [ha.instructions, ha.instruction]
    exact h.output_of_origin v i hv

/-- An output is made by its instruction: the phi had not been one. -/
theorem origin_of_output (ha : WithPhi b b' k p) (h : b.WellFormed)
    (hi : (b'.instruction i).output = some v) :
    v ∈ b'.values ∧ (b'.value v).origin = .instruction i := by
  rw [ha.instruction] at hi
  obtain ⟨hv, ho⟩ := h.origin_of_output i v hi
  have hne : v ≠ p := by
    rintro rfl
    exact ha.notMem hv
  rw [ha.mem_values, ha.origin, if_neg hne]
  exact ⟨Or.inl hv, ho⟩

/-- A block lists its phis: the new one is in one block only. -/
theorem mem_phis (ha : WithPhi b b' k p) (h : b.WellFormed) {q : ValueId} :
    q ∈ (b'.block l).phis ↔ ∃ operands, (b'.value q).origin = .phi l operands := by
  rw [ha.block, ha.origin, List.mem_append, h.mem_phis]
  by_cases hq : q = p
  · subst hq
    have hold : ¬ ∃ operands, (b.value q).origin = .phi l operands := by
      rintro ⟨operands, ho⟩
      exact ha.not_phi l operands ho
    by_cases hlk : l = k
    · simp [hlk]
    · simp [hold, hlk, Ne.symm hlk]
  · by_cases hlk : l = k <;> simp [hq, hlk]

theorem phis_nodup (ha : WithPhi b b' k p) (h : b.WellFormed) : (b'.block l).phis.Nodup := by
  rw [ha.block]
  simp only
  split
  · refine List.nodup_append.2 ⟨h.phis_nodup l, by simp, ?_⟩
    intro q hq q' hq'
    rw [List.mem_singleton.1 hq']
    rintro rfl
    obtain ⟨operands, ho⟩ := (h.mem_phis l q).1 hq
    exact ha.not_phi l operands ho
  · rw [List.append_nil]
    exact h.phis_nodup l

end WithPhi

theorem WellFormed.addPhi {type : DeclaredType ClassId} (h : b.WellFormed)
    (hadd : b.addPhi k type = .ok (p, b')) : b'.WellFormed := by
  have ha := addPhi_ok hadd
  exact {
    not_stack := fun v hv slot definition => ha.not_stack h hv slot definition
    output_of_origin := fun v i hv => ha.output_of_origin h hv
    origin_of_output := fun i v hi => ha.origin_of_output h hi
    inputs_mem := fun i v hv =>
      (ha.mem_values v).2 (Or.inl (h.inputs_mem i v (ha.instruction i ▸ hv)))
    mem_instructions := fun l i => by
      rw [ha.block, ha.instructions, ha.instruction]
      exact h.mem_instructions l i
    instructions_nodup := fun l => by
      rw [ha.block]
      exact h.instructions_nodup l
    mem_phis := fun l q => ha.mem_phis h
    phis_nodup := fun l => ha.phis_nodup h
    operands_mem :=
      fun q v hv => (ha.mem_values v).2 (Or.inl (h.operands_mem q v (ha.operands q ▸ hv)))
    edges := fun l m => by
      rw [ha.block, ha.block]
      exact h.edges l m
    successors_mem := fun l m hm => by
      rw [ha.block] at hm
      exact (ha.mem_blocks m).2 (h.successors_mem l m hm)
    mem_readers := fun v i => by
      rw [ha.users, ha.instruction]
      exact h.mem_readers v i
    mem_phiReaders := fun v q => by
      rw [ha.users, ha.operands]
      exact h.mem_phiReaders v q }

/-! ### A new operand of a phi -/

/-- What is there after a phi has been given another operand. -/
structure WithOperand (b b' : Body) (p v : ValueId) : Prop where
  mem : v ∈ b.values
  mem_values : ∀ w, w ∈ b'.values ↔ w ∈ b.values
  phi : ∃ k operands, (b.value p).origin = .phi k operands ∧
    ∀ w, (b'.value w).origin = if w = p then .phi k (operands ++ [v]) else (b.value w).origin
  readers : ∀ w, (b'.value w).users.instructions = (b.value w).users.instructions
  phiReaders : ∀ w q, q ∈ (b'.value w).users.phis ↔ q = p ∧ w = v ∨ q ∈ (b.value w).users.phis
  instructions : b'.instructions = b.instructions
  blocks : b'.blocks = b.blocks

theorem addPhiOperand_ok (h : b.addPhiOperand p v = .ok b') : WithOperand b b' p v := by
  unfold addPhiOperand at h
  split at h
  · simp at h
  · rename_i hp
    split at h
    · rename_i k operands ho
      split at h
      · simp at h
      · rename_i hv
        simp only [Except.ok.injEq, Classical.not_not] at h hp hv
        subst h
        -- first the operand is noted in the phi, then the phi at the operand
        generalize hb : (b.modifyValue p fun x => { x with origin := .phi k (operands ++ [v]) }) = c
        have hmem : ∀ w, w ∈ c.values ↔ w ∈ b.values := by
          intro w
          rw [← hb]
          exact Table.mem_modify
        have horigin : ∀ w, (c.value w).origin = if w = p then .phi k (operands ++ [v])
            else (b.value w).origin := by
          intro w
          rw [← hb, value_modifyValue]
          by_cases hw : w = p
          · subst hw
            simp [hp]
          · simp [hw, Ne.symm hw]
        have husers : ∀ w, (c.value w).users = (b.value w).users := by
          intro w
          rw [← hb, value_modifyValue]
          split <;> rfl
        refine ⟨hv, fun w => Table.mem_modify.trans (hmem w), ⟨k, operands, ho, fun w => ?_⟩,
          fun w => ?_, fun w q => ?_, by rw [← hb]; rfl, by rw [← hb]; rfl⟩
        · rw [value_modifyValue, ← horigin]
          split <;> rfl
        · rw [value_modifyValue, ← husers]
          split <;> rfl
        · rw [value_modifyValue, ← husers]
          -- only the operand gets a reader
          by_cases hw : w = v
          · subst hw
            rw [if_pos ⟨rfl, (hmem w).2 hv⟩, Value.mem_addPhiReader]
            simp
          · simp [hw, Ne.symm hw]
    · simp at h

theorem WithOperand.operands (h : WithOperand b b' p v) (q : ValueId) :
    b'.operands q = b.operands q ++ if q = p then [v] else [] := by
  obtain ⟨k, operands, ho, horigin⟩ := h.phi
  unfold Body.operands Value.operands
  rw [horigin]
  by_cases hq : q = p
  · rw [if_pos hq, if_pos hq, hq, ho]
  · rw [if_neg hq, if_neg hq, List.append_nil]

theorem WithOperand.instruction (h : WithOperand b b' p v) (i : InsnId) :
    b'.instruction i = b.instruction i := by
  rw [Body.instruction, Body.instruction, h.instructions]

theorem WithOperand.block (h : WithOperand b b' p v) (l : BlockId) : b'.block l = b.block l := by
  rw [Body.block, Body.block, h.blocks]

/-- What an instruction makes is no phi, so it has no operands to get. -/
theorem WithOperand.origin_instruction (h : WithOperand b b' p v) {w : ValueId} {i : InsnId} :
    (b'.value w).origin = .instruction i ↔ (b.value w).origin = .instruction i := by
  obtain ⟨k, operands, ho, horigin⟩ := h.phi
  rw [horigin]
  by_cases hw : w = p
  · simp [hw, ho]
  · simp [hw]

/-- The phi stays one, and in its block. -/
theorem WithOperand.origin_phi (h : WithOperand b b' p v) {q : ValueId} {l : BlockId} :
    (∃ operands, (b'.value q).origin = .phi l operands) ↔
      ∃ operands, (b.value q).origin = .phi l operands := by
  obtain ⟨k, operands, ho, horigin⟩ := h.phi
  rw [horigin]
  by_cases hq : q = p
  · simp [hq, ho]
  · simp [hq]

theorem WithOperand.not_stack (h : WithOperand b b' p v) (hb : b.WellFormed) (w : ValueId)
    (hw : w ∈ b'.values) (slot : StackSlot) (definition : Option InsnId) :
    (b'.value w).origin ≠ .stack slot definition := by
  obtain ⟨k, operands, -, horigin⟩ := h.phi
  rw [horigin]
  split
  · exact Origin.noConfusion
  · exact hb.not_stack w ((h.mem_values w).1 hw) slot definition

theorem WithOperand.operands_mem (h : WithOperand b b' p v) (hb : b.WellFormed) (q w : ValueId)
    (hw : w ∈ b'.operands q) : w ∈ b'.values := by
  rw [h.operands, List.mem_append] at hw
  refine (h.mem_values w).2 ?_
  rcases hw with hw | hw
  · exact hb.operands_mem q w hw
  · split at hw
    · rw [List.mem_singleton.1 hw]
      exact h.mem
    · exact absurd hw List.not_mem_nil

/-- Exactly the new operand gets a reader. -/
theorem WithOperand.mem_phiReaders (h : WithOperand b b' p v) (hb : b.WellFormed) (w q : ValueId) :
    q ∈ (b'.value w).users.phis ↔ w ∈ b'.operands q := by
  rw [h.phiReaders, h.operands, List.mem_append, hb.mem_phiReaders]
  by_cases hq : q = p
  · simp [hq, or_comm]
  · simp [hq]

theorem WellFormed.addPhiOperand (h : b.WellFormed) (hadd : b.addPhiOperand p v = .ok b') :
    b'.WellFormed := by
  have ha := addPhiOperand_ok hadd
  exact {
    not_stack := ha.not_stack h
    output_of_origin := fun w i hw => by
      rw [ha.instructions, ha.instruction]
      exact h.output_of_origin w i (ha.origin_instruction.1 hw)
    origin_of_output := fun i w hi => by
      rw [ha.instruction] at hi
      rw [ha.mem_values, ha.origin_instruction]
      exact h.origin_of_output i w hi
    inputs_mem := fun i w hw => by
      rw [ha.instruction] at hw
      exact (ha.mem_values w).2 (h.inputs_mem i w hw)
    mem_instructions := fun l i => by
      rw [ha.block, ha.instructions, ha.instruction]
      exact h.mem_instructions l i
    instructions_nodup := fun l => by
      rw [ha.block]
      exact h.instructions_nodup l
    mem_phis := fun l q => by
      rw [ha.block, ha.origin_phi]
      exact h.mem_phis l q
    phis_nodup := fun l => by
      rw [ha.block]
      exact h.phis_nodup l
    operands_mem := ha.operands_mem h
    edges := fun l m => by
      rw [ha.block, ha.block]
      exact h.edges l m
    successors_mem := fun l m hm => by
      rw [ha.block] at hm
      rw [ha.blocks]
      exact h.successors_mem l m hm
    mem_readers := fun w i => by
      rw [ha.readers, ha.instruction]
      exact h.mem_readers w i
    mem_phiReaders := ha.mem_phiReaders h }

/-! ### All of them -/

theorem wellFormed_empty (m : MethodId) : WellFormed { method := m } := by
  have hvalue : ∀ v, Body.value { method := m } v = default :=
    fun v => value_of_notMem (Nat.not_lt_zero _)
  have hinstruction : ∀ i, Body.instruction { method := m } i = default :=
    fun i => instruction_of_notMem (Nat.not_lt_zero _)
  have hblock : ∀ k, Body.block { method := m } k = default :=
    fun k => block_of_notMem (Nat.not_lt_zero _)
  have hoperands : ∀ v, Body.operands { method := m } v = [] := by
    intro v
    rw [Body.operands, hvalue]
    rfl
  constructor <;> simp [hvalue, hinstruction, hblock, hoperands, default, Table.mem_def, Table.size]

/-- Every body that is built is well-formed. -/
theorem Built.wellFormed (h : Built b) : b.WellFormed := by
  induction h with
  | empty m => exact wellFormed_empty m
  | addBlock built ih => exact ih.addBlock
  | addEdge built added ih => exact ih.addEdge added
  | append built added ih => exact ih.append added
  | addPhi built added ih => exact ih.addPhi added
  | addPhiOperand built added ih => exact ih.addPhiOperand added
  | setLine built set ih => exact ih.setLine set

/-! ### What is where in a body that is built -/

theorem mem_values_of_isPhi (hp : (b.value p).isPhi = true) : p ∈ b.values := by
  refine Classical.byContradiction fun hv => ?_
  rw [value_of_notMem hv] at hp
  exact Bool.noConfusion hp

theorem WellFormed.isPhi_of_mem_phis (h : b.WellFormed) (hp : p ∈ (b.block k).phis) :
    (b.value p).isPhi = true := by
  obtain ⟨operands, ho⟩ := (h.mem_phis k p).1 hp
  rw [Value.isPhi, ho]

theorem WellFormed.mem_values_of_phi (h : b.WellFormed) (hp : p ∈ (b.block k).phis) :
    p ∈ b.values :=
  mem_values_of_isPhi (h.isPhi_of_mem_phis hp)

theorem origin_of_isPhi (hp : (b.value p).isPhi = true) :
    ∃ k, (b.value p).origin = .phi k (b.operands p) := by
  unfold Value.isPhi at hp
  split at hp
  · rename_i k operands ho
    exact ⟨k, by rw [Body.operands, Value.operands, ho]⟩
  · exact Bool.noConfusion hp

/-- Only phis have operands. -/
theorem isPhi_of_operand (h : v ∈ b.operands p) : (b.value p).isPhi = true := by
  unfold operands Value.operands at h
  unfold Value.isPhi
  split at h
  · rfl
  · exact absurd h List.not_mem_nil

/-- What makes a value has it as its output. -/
theorem WellFormed.output_of_definition (h : b.WellFormed) (hi : (b.value v).definition? = some i) :
    i ∈ b.instructions ∧ (b.instruction i).output = some v := by
  refine h.output_of_origin v i ?_
  by_cases hv : v ∈ b.values
  · cases ho : (b.value v).origin with
    | instruction j => simpa [Value.definition?, ho] using hi
    | phi l operands => simp [Value.definition?, ho] at hi
    | stack slot definition => exact absurd ho (h.not_stack v hv slot definition)
  · rw [value_of_notMem hv] at hi
    simp [Value.definition?, default] at hi

theorem WellFormed.mem_instructionsOf (h : b.WellFormed) (hi : i ∈ b.instructions) :
    b.instruction i ∈ b.instructionsOf (b.instruction i).block :=
  List.mem_map_of_mem ((h.mem_instructions _ i).2 ⟨hi, rfl⟩)

/-- A value is the output of one instruction. -/
theorem WellFormed.output_inj (h : b.WellFormed) {j : InsnId}
    (hi : (b.instruction i).output = some v) (hj : (b.instruction j).output = some v) : i = j :=
  Origin.instruction.inj ((h.origin_of_output i v hi).2.symm.trans (h.origin_of_output j v hj).2)

theorem mem_blocks_of_instruction {insn : Instruction} (h : insn ∈ b.instructionsOf k) :
    k ∈ b.blocks :=
  Classical.byContradiction fun hk => by
    rw [instructionsOf, block_of_notMem hk] at h
    exact List.not_mem_nil h

theorem mem_blocks_of_successor (h : l ∈ (b.block k).successors) : k ∈ b.blocks :=
  Classical.byContradiction fun hk => by
    rw [block_of_notMem hk] at h
    exact List.not_mem_nil h

/-! ### Values along edges -/

/-- The values after the edge from the predecessor at a position: all phis take their operands at
once. -/
def enter {V : Type} (b : Body) (env : ValueId → Option V) (l : BlockId) (position : Nat) :
    ValueId → Option V := fun v =>
  if v ∈ (b.block l).phis then (b.operands v)[position]?.bind env else env v

/-! ### Bodies from lists of steps -/

/-- A step of building a body. -/
inductive Construction where
  | block
  | edge (source target : BlockId)
  | instruction (k : BlockId) (operation : Operation) (inputs : List ValueId := [])
      (out : Option (DeclaredType ClassId) := none)
  | phi (k : BlockId) (type : DeclaredType ClassId)
  | operand (phi operand : ValueId)

/-- Makes a step; one that fails is left out. -/
def construct (b : Body) : Construction → Body
  | .block => b.addBlock.2
  | .edge source target => (b.addEdge source target).toOption.getD b
  | .instruction k operation inputs out =>
    ((b.append k operation inputs out).map Prod.snd).toOption.getD b
  | .phi k type => ((b.addPhi k type).map Prod.snd).toOption.getD b
  | .operand phi operand => (b.addPhiOperand phi operand).toOption.getD b

def ofSteps (m : MethodId) (steps : List Construction) : Body :=
  steps.foldl construct { method := m }

theorem Built.construct (h : Built b) (step : Construction) : Built (b.construct step) := by
  cases step with
  | block => exact h.addBlock
  | edge source target =>
    simp only [Body.construct]
    cases hadd : b.addEdge source target with
    | error e => exact h
    | ok b' => exact h.addEdge hadd
  | instruction k operation inputs out =>
    simp only [Body.construct]
    cases hadd : b.append k operation inputs out with
    | error e => exact h
    | ok r => exact h.append hadd
  | phi k type =>
    simp only [Body.construct]
    cases hadd : b.addPhi k type with
    | error e => exact h
    | ok r => exact h.addPhi hadd
  | operand phi operand =>
    simp only [Body.construct]
    cases hadd : b.addPhiOperand phi operand with
    | error e => exact h
    | ok b' => exact h.addPhiOperand hadd

theorem built_ofSteps (m : MethodId) (steps : List Construction) : Built (ofSteps m steps) :=
  List.foldlRecOn steps Body.construct (.empty m) fun _ h step _ => h.construct step

end JvmLowering.Body
