import JvmLowering.Proofs.Body.Extension
import JvmLowering.Proofs.Lowering.Layout
import JvmLowering.Proofs.Lowering.Readers

/-!
# Outputs and what makes them

Each output that is no phi is made by the one instruction that has it, and a block is marked if one
of its instructions can throw. Both hold of all instructions that are there, whether they stand in a
block or not, so each change on the way to stack code can be looked at alone.

* `Body.canThrow`, `Body.Built.throwing_iff`: marked blocks, as they are built;
* `Body.Coherent`: outputs are made by their instructions, and the marks and the lists of readers
  are right;
* `Body.Coherent.pushInstruction` and the like: what the changes keep.
-/

namespace JvmLowering

namespace Body

variable {b b' : Body} {i j : InsnId} {v w p : ValueId} {k l : BlockId}

/-! ### Blocks that can throw -/

/-- The instruction can throw, given the declared type of its output. -/
def canThrow (b : Body) (i : InsnId) : Bool :=
  (b.instruction i).operation.canThrow ((b.instruction i).output.map fun v => (b.value v).type)

theorem canThrow_congr (hop : (b'.instruction j).operation = (b.instruction i).operation)
    (hout : ((b'.instruction j).output.map fun v => (b'.value v).type) =
      (b.instruction i).output.map fun v => (b.value v).type) :
    b'.canThrow j = b.canThrow i := by
  rw [canThrow, canThrow, hop, hout]

/-- The same instruction, with an output that has the same type. -/
theorem canThrow_of_instruction (hinstruction : b'.instruction i = b.instruction i)
    (htype : ∀ v, (b.instruction i).output = some v → (b'.value v).type = (b.value v).type) :
    b'.canThrow i = b.canThrow i := by
  refine canThrow_congr (by rw [hinstruction]) ?_
  rw [hinstruction]
  exact Option.map_congr htype

/-- A new instruction marks its block if it can throw. -/
theorem throwing_pushInstruction (b : Body) (insn : Instruction) (l : BlockId) :
    ((b.pushInstruction insn).2.block l).throwing = true ↔
      (b.block l).throwing = true ∨
        (l = insn.block ∧ l ∈ b.blocks) ∧
          (b.pushInstruction insn).2.canThrow b.instructions.next = true := by
  have hcan : (b.pushInstruction insn).2.canThrow b.instructions.next =
      insn.operation.canThrow (insn.output.map fun v =>
      ((b.pushInstruction insn).2.values.get v).type) := by
    rw [canThrow, instruction_pushInstruction, if_pos rfl]
    rfl
  have hblocks : (b.pushInstruction insn).2.blocks =
      if (b.pushInstruction insn).2.canThrow b.instructions.next then
        b.blocks.modify insn.block fun k => { k with throwing := true } else b.blocks := by
    rw [hcan]
    rfl
  rw [Body.block, hblocks]
  cases (b.pushInstruction insn).2.canThrow b.instructions.next with
  | false => simp [Body.block]
  | true =>
    rw [if_pos rfl, Table.get_modify]
    split
    · rename_i hl
      exact ⟨fun _ => Or.inr ⟨⟨hl.1.symm, hl.2⟩, rfl⟩, fun _ => rfl⟩
    · rename_i hl
      rw [or_iff_left fun h => hl ⟨h.1.1.symm, h.1.2⟩]
      rfl

theorem append_throwing {operation : Operation} {inputs : List ValueId}
    {out : Option (DeclaredType ClassId)} (h : b.append k operation inputs out = .ok (i, b'))
    (l : BlockId) :
    (b'.block l).throwing = true ↔ (b.block l).throwing = true ∨ l = k ∧ b'.canThrow i = true := by
  unfold append at h
  simp only at h
  split at h
  · simp at h
  split at h
  · simp at h
  rename_i hk
  change ¬ k ∉ (b.withOutput out).blocks at hk
  rw [Classical.not_not] at hk
  obtain ⟨rfl, rfl⟩ := Prod.mk.inj (Except.ok.inj h)
  change ((((b.withOutput out).pushInstruction
    { operation, inputs, output := out.map fun _ => b.values.next, block := k }).2.modifyBlock k
      fun x => { x with instructions :=
        x.instructions ++ [(b.withOutput out).instructions.next] }).block l).throwing = true ↔ _
  rw [block_modifyBlock, apply_ite Block.throwing, ite_self, throwing_pushInstruction]
  refine or_congr (by rw [Body.block, blocks_withOutput]; rfl)
    (and_congr_left fun _ => and_iff_left_of_imp ?_)
  rintro rfl
  exact hk

theorem addEdge_throwing {source target : BlockId} (h : b.addEdge source target = .ok b')
    (l : BlockId) :
    (b'.block l).throwing = (b.block l).throwing := by
  unfold addEdge at h
  split at h
  · simp at h
  split at h
  · simp at h
  rw [← Except.ok.inj h, block_modifyBlock, apply_ite Block.throwing, ite_self, block_modifyBlock,
    apply_ite Block.throwing, ite_self]

/-- The marks stay right if the instructions and the types of their outputs stay. -/
theorem throwing_iff_congr (hb : b.WellFormed)
    (h : (b.block k).throwing = true ↔ ∃ i ∈ (b.block k).instructions, b.canThrow i = true)
    (hinstruction : ∀ i, b'.instruction i = b.instruction i)
    (htype : ∀ v ∈ b.values, (b'.value v).type = (b.value v).type)
    (hthrowing : (b'.block k).throwing = (b.block k).throwing)
    (hlist : (b'.block k).instructions = (b.block k).instructions) :
    (b'.block k).throwing = true ↔ ∃ i ∈ (b'.block k).instructions, b'.canThrow i = true := by
  have hsame : ∀ i, b'.canThrow i = b.canThrow i := fun i =>
    canThrow_of_instruction (hinstruction i) fun v hv => htype v (hb.origin_of_output i v hv).1
  simp only [hthrowing, hlist, hsame]
  exact h

/-- One of the instructions can throw if one of the old ones can, or the new one. -/
theorem append_canThrow (hb : b.WellFormed) {operation : Operation} {inputs : List ValueId}
    {out : Option (DeclaredType ClassId)} (h : b.append k operation inputs out = .ok (i, b'))
    (l : BlockId) :
    (∃ j ∈ (b'.block l).instructions, b'.canThrow j = true) ↔
      (∃ j ∈ (b.block l).instructions, b.canThrow j = true) ∨ l = k ∧ b'.canThrow i = true := by
  have ha := append_ok h
  have hsame : ∀ j ∈ (b.block l).instructions, b'.canThrow j = b.canThrow j := by
    intro j hj
    have hmem := ((hb.mem_instructions l j).1 hj).1
    refine canThrow_of_instruction ((ha.instruction j).trans (if_neg ?_)) fun v hv => ?_
    · rintro rfl
      exact Table.next_notMem _ (ha.id ▸ hmem)
    · exact (append_declared h).2 v (hb.origin_of_output j v hv).1
  rw [ha.instructions]
  constructor
  · rintro ⟨j, hj, hthrows⟩
    rcases List.mem_append.1 hj with hj | hj
    · exact Or.inl ⟨j, hj, (hsame j hj).symm.trans hthrows⟩
    · split at hj
      · rename_i hlk
        exact Or.inr ⟨hlk, List.mem_singleton.1 hj ▸ hthrows⟩
      · exact absurd hj List.not_mem_nil
  · rintro (⟨j, hj, hthrows⟩ | ⟨rfl, hthrows⟩)
    · exact ⟨j, List.mem_append_left _ hj, (hsame j hj).trans hthrows⟩
    · exact ⟨i, List.mem_append_right _ (by simp), hthrows⟩

/-- **A block of a body that is built is marked exactly if one of its instructions can throw.** -/
theorem Built.throwing_iff (hb : b.Built) (k : BlockId) :
    (b.block k).throwing = true ↔ ∃ i ∈ (b.block k).instructions, b.canThrow i = true := by
  induction hb with
  | empty m =>
    have hk : k ∉ ({ method := m } : Body).blocks := fun hk => absurd hk (Nat.not_lt_zero _)
    simp [block_of_notMem hk, default]
  -- only an appended instruction can make a block throw; the other steps change none
  | addBlock built ih =>
    rw [block_addBlock]
    exact ih
  | @addEdge b b' source target built added ih =>
    obtain ⟨-, -, hr, -, -, -⟩ := addEdge_ok added
    exact throwing_iff_congr built.wellFormed ih
      (fun i => by rw [Body.instruction, Body.instruction, (addEdge_declared added).2])
      (fun v _ => by rw [hr.value]) (addEdge_throwing added k) (hr.instructions k)
  | append built added ih => rw [append_throwing added, ih, append_canThrow built.wellFormed added]
  | @addPhi b b' l type v built added ih =>
    have ha := addPhi_ok added
    have hblock := ha.block k
    exact throwing_iff_congr built.wellFormed ih
      (fun i => by rw [Body.instruction, Body.instruction, ha.instructions])
      (addPhi_declared added).2 (by rw [hblock]) (by rw [hblock])
  | @addPhiOperand b b' p v built added ih =>
    have ha := addPhiOperand_ok added
    have hblock : b'.block k = b.block k := by rw [Body.block, Body.block, ha.blocks]
    exact throwing_iff_congr built.wellFormed ih
      (fun i => by rw [Body.instruction, Body.instruction, ha.instructions])
      (fun w _ => (addPhiOperand_declared added).2 w) (by rw [hblock]) (by rw [hblock])
  | @setLine b b' i line built set ih =>
    unfold Body.setLine at set
    split at set
    · simp at set
    · rw [← Except.ok.inj set]
      have hsame : ∀ j,
          (b.modifyInstruction i fun insn => { insn with line := some line }).canThrow j =
          b.canThrow j := by
        intro j
        refine canThrow_congr ?_ (congrArg (Option.map _) ?_)
        · exact instruction_modifyInstruction_congr _ _ _ Instruction.operation fun _ => rfl
        · exact instruction_modifyInstruction_congr _ _ _ Instruction.output fun _ => rfl
      simp only [hsame]
      exact ih

/-! ### Coherent bodies -/

/-- Each output that is no phi is made by the instruction that has it. -/
def OutputsDefined (b : Body) : Prop :=
  ∀ i v, (b.instruction i).output = some v → (b.value v).isPhi = false →
    (b.value v).definition? = some i

/-- The block of each instruction that can throw is marked. -/
def ThrowsMarked (b : Body) : Prop :=
  ∀ i ∈ b.instructions, b.canThrow i = true → (b.block (b.instruction i).block).throwing = true

/-- Nothing dangles, and readers, outputs and marks are right. -/
structure Coherent (b : Body) : Prop where
  closed : b.Closed
  readers : b.ReadersKnown
  defined : b.OutputsDefined
  marked : b.ThrowsMarked

theorem Built.coherent (hb : b.Built) : b.Coherent := by
  have hw := hb.wellFormed
  refine ⟨hw.closed, hw.mem_readers, fun i v hv _ => ?_, fun i hi hthrows => ?_⟩
  · rw [Value.definition?, (hw.origin_of_output i v hv).2]
  · exact (hb.throwing_iff _).2 ⟨i, (hw.mem_instructions _ i).2 ⟨hi, rfl⟩, hthrows⟩

theorem Closed.mem_of_output (hc : b.Closed) (hv : (b.instruction i).output = some v) :
    v ∈ b.values := by
  by_cases hi : i ∈ b.instructions
  · exact hc.output i hi v hv
  · rw [instruction_of_notMem hi] at hv
    exact absurd hv (by simp [default])

theorem isPhi_defineBy (x : Value) (i : InsnId) : (x.defineBy i).isPhi = x.isPhi := by
  unfold Value.defineBy Value.isPhi
  cases ho : x.origin <;> simp [ho]

theorem definition?_defineBy {x : Value} (hx : x.isPhi = false) (i : InsnId) :
    (x.defineBy i).definition? = some i := by
  unfold Value.defineBy Value.definition?
  unfold Value.isPhi at hx
  cases ho : x.origin <;> simp_all

/-- Outputs stay defined if no output is changed but where it comes from stays. -/
theorem OutputsDefined.congr (h : b.OutputsDefined)
    (houtput : ∀ i, (b'.instruction i).output = (b.instruction i).output)
    (horigin : ∀ i v, (b.instruction i).output = some v →
      (b'.value v).origin = (b.value v).origin) : b'.OutputsDefined := by
  intro i v hv hphi
  rw [houtput] at hv
  rw [Value.isPhi, horigin i v hv] at hphi
  rw [Value.definition?, horigin i v hv]
  exact h i v hv hphi

theorem Coherent.pushStackValue (h : b.Coherent) (slot : StackSlot) (type : DeclaredType ClassId) :
    (b.pushStackValue slot type).2.Coherent := by
  have hvalue : ∀ i v, (b.instruction i).output = some v →
      (b.pushStackValue slot type).2.value v = b.value v :=
    fun i v hv => value_pushStackValue (h.closed.mem_of_output hv) slot type
  refine ⟨h.closed.pushStackValue slot type, h.readers.pushStackValue slot type,
    h.defined.congr (fun _ => rfl) fun i v hv => by rw [hvalue i v hv],
    fun i hi hthrows => h.marked i hi ?_⟩
  have hcan : (b.pushStackValue slot type).2.canThrow i = b.canThrow i :=
    canThrow_of_instruction rfl fun v hv => by rw [hvalue i v hv]
  exact hcan ▸ hthrows

/-- An instruction may be added if its output is a phi, or nothing has it yet. -/
theorem Coherent.pushInstruction {insn : Instruction} (h : b.Coherent) (stored : ValueId → Prop)
    (hinputs : ∀ v ∈ insn.inputs, v ∈ b.values)
    (houtput : ∀ v, insn.output = some v →
      v ∈ b.values ∧ ((b.value v).isStack = true ∨ insn.operation = .store ∧ stored v))
    (hblock : insn.block ∈ b.blocks)
    (hfresh : ∀ v, insn.output = some v → (b.value v).isPhi = true ∨ ∀ j,
      (b.instruction j).output ≠ some v) :
    (b.pushInstruction insn).2.Coherent := by
  refine ⟨h.closed.pushInstruction hinputs houtput hblock,
    h.readers.pushInstruction h.closed hinputs, fun j v hv hphi => ?_,
    fun j hj hthrows => (throwing_pushInstruction ..).2 ?_⟩
  · rw [instruction_pushInstruction] at hv
    have horigin := origin_pushInstruction b v insn
    split at hv
    · -- the new instruction makes its output, unless that is a phi
      rename_i hjn
      rw [if_pos ⟨hv, (houtput v hv).1⟩] at horigin
      rw [Value.isPhi, horigin] at hphi
      rw [hjn, Value.definition?, horigin]
      exact definition?_defineBy ((isPhi_defineBy ..).symm.trans hphi) _
    · by_cases hout : insn.output = some v
      · rcases hfresh v hout with hv' | hnone
        · rw [if_pos ⟨hout, (houtput v hout).1⟩] at horigin
          rw [Value.isPhi, horigin] at hphi
          exact absurd (((isPhi_defineBy ..).symm.trans hphi).symm.trans hv') (by simp)
        · exact absurd hv (hnone j)
      · rw [if_neg fun hout' => hout hout'.1] at horigin
        rw [Value.isPhi, horigin] at hphi
        rw [Value.definition?, horigin]
        exact h.defined j v hv hphi
  · rw [instruction_pushInstruction]
    split
    · rename_i hjn
      exact Or.inr ⟨⟨rfl, hblock⟩, hjn ▸ hthrows⟩
    · rename_i hjn
      have hj' := ((mem_instructions_pushInstruction b insn).1 hj).resolve_right hjn
      have hcan : (b.pushInstruction insn).2.canThrow j = b.canThrow j :=
        canThrow_of_instruction ((instruction_pushInstruction ..).trans (if_neg hjn)) fun v _ =>
          type_pushInstruction ..
      exact Or.inl (h.marked j hj' (hcan ▸ hthrows))

theorem Coherent.replaceInput (h : b.Coherent) (n : Nat) (hi : i ∈ b.instructions)
    (hw : w ∈ b.values) :
    (b.replaceInput i n w).Coherent := by
  have hsame : ∀ {β : Type} (f : Instruction → β),
      (∀ insn inputs, f { insn with inputs } = f insn) →
      ∀ j, f ((b.replaceInput i n w).instruction j) = f (b.instruction j) := by
    intro β f hf j
    rw [instruction_replaceInput _ _ _ hi]
    split
    · rename_i hji
      rw [hji]
      exact hf _ _
    · rfl
  refine ⟨h.closed.replaceInput n hi hw, h.readers.replaceInput n hi hw,
    h.defined.congr (hsame Instruction.output fun _ _ => rfl) fun _ _ _ => origin_replaceInput ..,
    fun j hj hthrows => ?_⟩
  rw [Body.block, blocks_replaceInput, hsame Instruction.block fun _ _ => rfl]
  have hcan : (b.replaceInput i n w).canThrow j = b.canThrow j := by
    refine canThrow_congr (hsame Instruction.operation (fun _ _ => rfl) j) ?_
    rw [hsame Instruction.output fun _ _ => rfl]
    exact Option.map_congr fun v _ => type_replaceInput ..
  exact h.marked j ((mem_instructions_replaceInput ..).1 hj) (hcan ▸ hthrows)

/-- An output may be replaced by one of its type that nothing has yet. -/
theorem Coherent.replaceOutput (h : b.Coherent) (hi : i ∈ b.instructions)
    (hv : (b.instruction i).output = some v) (hw : w ∈ b.values)
    (hstack : (b.value w).isStack = true) (htype : (b.value w).type = (b.value v).type)
    (hfresh : ∀ j, (b.instruction j).output ≠ some w) : (b.replaceOutput i w).Coherent := by
  have hwvalue : (b.replaceOutput i w).value w = (b.value w).defineBy i := by
    rw [Body.replaceOutput, value_modifyValue, if_pos ⟨rfl, hw⟩, value_modifyInstruction]
  refine ⟨h.closed.replaceOutput hi hw hstack, h.readers.replaceOutput hi w, fun j u hu hphi => ?_,
    fun j hj hthrows => ?_⟩
  -- what makes a value is what has it as output: the new output is made by `i`
  · rw [instruction_replaceOutput _ _ hi] at hu
    split at hu
    · rename_i hji
      obtain rfl : w = u := Option.some.inj hu
      rw [hwvalue] at hphi ⊢
      rw [hji]
      exact definition?_defineBy ((isPhi_defineBy ..).symm.trans hphi) i
    · have hne : u ≠ w := fun huw => hfresh j (huw ▸ hu)
      have horigin := origin_replaceOutput b u i w hne
      rw [Value.isPhi, horigin] at hphi
      rw [Value.definition?, horigin]
      exact h.defined j u hu hphi
  -- an output of the same type does not change what can throw
  · have hcan : (b.replaceOutput i w).canThrow j = b.canThrow j := by
      by_cases hji : j = i
      · subst hji
        refine canThrow_congr (by rw [instruction_replaceOutput _ _ hi, if_pos rfl]) ?_
        rw [instruction_replaceOutput _ _ hi, if_pos rfl, hv, Option.map_some, Option.map_some,
          type_replaceOutput, htype]
      · exact canThrow_of_instruction ((instruction_replaceOutput _ _ hi).trans (if_neg hji))
          fun u _ => type_replaceOutput ..
    have hblock : ((b.replaceOutput i w).instruction j).block = (b.instruction j).block := by
      rw [instruction_replaceOutput _ _ hi]
      split
      · rename_i hji
        rw [hji]
      · rfl
    rw [hblock]
    exact h.marked j ((mem_instructions_replaceOutput ..).1 hj) (hcan ▸ hthrows)

theorem next_replaceOutput (b : Body) (i : InsnId) (w : ValueId) :
    (b.replaceOutput i w).instructions.next = b.instructions.next :=
  congrArg Index.mk (Table.size_modify ..)

theorem Coherent.setInstructions (h : b.Coherent) (hk : k ∈ b.blocks) {is : List InsnId}
    (his : ∀ j ∈ is, j ∈ b.instructions) :
    (b.setInstructions k is).Coherent := by
  refine ⟨h.closed.setInstructions hk his, h.readers, h.defined, fun i hi hthrows => ?_⟩
  rw [block_setInstructions _ hk]
  exact h.marked i hi hthrows

theorem Coherent.removePhiReader (h : b.Coherent) (v p : ValueId) :
    (b.modifyValue v (·.removePhiReader p)).Coherent := by
  refine ⟨h.closed.removePhiReader v p, fun w j => ?_, h.defined.congr (fun _ => rfl) fun _ _ _ =>
    value_modifyValue_congr _ _ _ Value.origin fun _ => rfl, fun i hi hthrows => ?_⟩
  · rw [value_modifyValue]
    split <;> exact h.readers w j
  · have hcan : (b.modifyValue v (·.removePhiReader p)).canThrow i = b.canThrow i :=
      canThrow_of_instruction rfl fun w _ => value_modifyValue_congr _ _ _ Value.type fun _ => rfl
    exact h.marked i hi (hcan ▸ hthrows)

end Body

/-! ### Pushing and storing -/

namespace StackCoding

open Body Emitter

variable {c : StackCoding} {b : Body} {e : Emitter} {i j : InsnId} {u v entry : ValueId}
  {k : BlockId} {line : Option UInt32}

theorem block_pushing (c : StackCoding) (b : Body) (k : BlockId) (line : Option UInt32)
    (v entry : ValueId) :
    (c.pushing b k line v entry).block = k := by
  unfold pushing
  split <;> rfl

theorem output_pushing (c : StackCoding) (b : Body) (k : BlockId) (line : Option UInt32)
    (v entry : ValueId) :
    (c.pushing b k line v entry).output = some entry := by
  unfold pushing
  split <;> rfl

/-- A value is read where it is pushed only if it is not pushed as a constant. -/
theorem mem_inputs_pushing (hu : u ∈ (c.pushing b k line v entry).inputs) :
    u = v ∧ c.constant? b u = none := by
  unfold pushing at hu
  split at hu
  · simp at hu
  · rename_i hnone
    obtain rfl := List.mem_singleton.1 hu
    exact ⟨rfl, hnone⟩

theorem block_taking (b : Body) (k : BlockId) (line : Option UInt32) (v entry : ValueId) :
    (taking b k line v entry).block = k := by
  unfold taking
  split <;> rfl

theorem mem_inputs_taking (hu : u ∈ (taking b k line v entry).inputs) : u = entry := by
  unfold taking at hu
  split at hu <;> exact List.mem_singleton.1 hu

theorem of_output_taking (hu : (taking b k line v entry).output = some u) :
    u = v ∧ (taking b k line v entry).operation = .store := by
  unfold taking at hu ⊢
  split at hu
  · simp at hu
  · rename_i hread
    rw [if_neg hread]
    exact ⟨(Option.some.inj hu).symm, rfl⟩

/-- An output that is read is stored. -/
theorem output_taking (hread : (b.value v).users.Reading) :
    (taking b k line v entry).output = some v := by
  unfold taking
  rw [if_neg fun hempty => Users.isEmpty_iff.1 hempty hread]

/-- Nothing has a new stack entry as its output. -/
theorem output_ne_next (h : b.Closed) (j : InsnId) :
    (b.instruction j).output ≠ some b.values.next :=
  fun hout => Table.next_notMem _ (h.mem_of_output hout)

theorem pushOperand_coherent (c : StackCoding) (line : Option UInt32) (h : e.body.Coherent)
    (hv : v ∈ e.body.values) (hk : k ∈ e.body.blocks) :
    (c.pushOperand k line e v).2.body.Coherent := by
  obtain ⟨hpushed, hentry, hstack⟩ :=
    writes_pushEntry .first (fun _ => False) e v (c.stackType e.body v)
  obtain ⟨event, heq⟩ := pushOperand_eq c k line hv
  rw [heq]
  refine (h.pushStackValue _ _).pushInstruction (fun _ => False) (fun u hu => ?_)
    (fun u hu => ?_) ?_ fun u hu => ?_
  · rw [(mem_inputs_pushing hu).1]
    exact hpushed.changes.retains.mem_values v hv
  · rw [← Option.some.inj ((output_pushing ..).symm.trans hu)]
    exact ⟨hentry, Or.inl hstack⟩
  · rw [block_pushing]
    exact hk
  · rw [← Option.some.inj ((output_pushing ..).symm.trans hu)]
    exact Or.inr fun j => output_ne_next h.closed j

/-- An output is taken off the stack: an entry is made, the instruction leaves its output there, and
another takes it. -/
theorem storeOutput_body (c : StackCoding) (k : BlockId) (i : InsnId) (line : Option UInt32)
    (hv : v ∈ e.body.values) :
    ∃ slot, (c.storeOutput k i line e v).body =
        (((e.body.pushStackValue slot (e.body.value v).type).2.replaceOutput i
          e.body.values.next).pushInstruction
          (taking e.body k line v e.body.values.next)).2 ∧
      (c.storeOutput k i line e v).emitted = e.emitted ++ [i, e.body.instructions.next] := by
  refine ⟨⟨e.stack.extent, c.stackType e.body v⟩, ?_⟩
  have husers : ((placeOutput e i v (c.stackType e.body v)).body.value v).users =
      (e.body.value v).users :=
    (users_replaceOutput ..).trans (congrArg Value.users (value_pushStackValue hv ..))
  have hnext : (placeOutput e i v (c.stackType e.body v)).body.instructions.next =
      e.body.instructions.next :=
    next_replaceOutput ..
  have hemitted :
      e.emitted ++ [i] ++ [(placeOutput e i v (c.stackType e.body v)).body.instructions.next] =
      e.emitted ++ [i, e.body.instructions.next] := by
    rw [hnext, List.append_assoc]
    rfl
  rw [storeOutput_eq, husers]
  unfold taking
  split
  · exact ⟨rfl, hemitted⟩
  · exact ⟨rfl, hemitted⟩

theorem instruction_storeOutput (c : StackCoding) (k : BlockId) (line : Option UInt32)
    (hv : v ∈ e.body.values) (hi : i ∈ e.body.instructions) (j : InsnId) :
    (c.storeOutput k i line e v).body.instruction j =
      if j = e.body.instructions.next then taking e.body k line v e.body.values.next
      else if j = i then { e.body.instruction i with output := some e.body.values.next }
        else e.body.instruction j := by
  obtain ⟨slot, hbody, -⟩ := storeOutput_body (e := e) c k i line hv
  have hreplaced :
      ((e.body.pushStackValue slot (e.body.value v).type).2.replaceOutput i
      e.body.values.next).instruction j = if j = i then
      { e.body.instruction i with output := some e.body.values.next } else e.body.instruction j :=
    instruction_replaceOutput _ _ hi
  rw [hbody, instruction_pushInstruction, next_replaceOutput, hreplaced]
  rfl

theorem mem_instructions_storeOutput (c : StackCoding) (k : BlockId) (line : Option UInt32)
    (hv : v ∈ e.body.values) :
    j ∈ (c.storeOutput k i line e v).body.instructions ↔ j ∈ e.body.instructions ∨
      j = e.body.instructions.next := by
  obtain ⟨slot, hbody, -⟩ := storeOutput_body (e := e) c k i line hv
  rw [hbody, mem_instructions_pushInstruction, next_replaceOutput, mem_instructions_replaceOutput]
  rfl

/-- An output that is no phi is made by the instruction that takes it, if that stores it. -/
theorem storeOutput_coherent (c : StackCoding) (line : Option UInt32) (h : e.body.Coherent)
    (hi : i ∈ e.body.instructions) (hout : (e.body.instruction i).output = some v)
    (hphi : (e.body.value v).isPhi = false) (hk : k ∈ e.body.blocks) :
    (c.storeOutput k i line e v).body.Coherent := by
  have hv := h.closed.mem_of_output hout
  obtain ⟨slot, hbody, -⟩ := storeOutput_body (e := e) c k i line hv
  have hentry : e.body.values.next ∈ (e.body.pushStackValue slot (e.body.value v).type).2.values :=
    Table.mem_push.2 (Or.inr rfl)
  have hnew : (e.body.pushStackValue slot (e.body.value v).type).2.value e.body.values.next =
      ⟨.stack slot none, (e.body.value v).type, {}⟩ := (value_pushValue ..).trans (if_pos rfl)
  -- the entry takes the place of the output, with its type
  have htype : ((e.body.pushStackValue slot (e.body.value v).type).2.value
      e.body.values.next).type =
      ((e.body.pushStackValue slot (e.body.value v).type).2.value v).type := by
    rw [hnew, value_pushStackValue hv]
  have hreplaced :=
    (h.pushStackValue slot (e.body.value v).type).replaceOutput hi hout hentry
      (by rw [hnew]; rfl) htype fun j => output_ne_next h.closed j
  have hinstruction :
      ∀ j, ((e.body.pushStackValue slot (e.body.value v).type).2.replaceOutput i
      e.body.values.next).instruction j = if j = i then
      { e.body.instruction i with output := some e.body.values.next } else e.body.instruction j :=
    fun j => instruction_replaceOutput _ _ hi
  rw [hbody]
  refine hreplaced.pushInstruction (fun u => u = v) (fun u hu => (mem_values_replaceOutput ..).2 ?_)
    (fun u hu => ?_) ?_ fun u hu => ?_
  · rw [mem_inputs_taking hu]
    exact hentry
  · obtain ⟨rfl, hstore⟩ := of_output_taking hu
    exact ⟨(mem_values_replaceOutput ..).2 (Table.mem_push.2 (Or.inl hv)), Or.inr ⟨hstore, rfl⟩⟩
  · rw [block_taking]
    exact hk
  -- the output is made by the store alone now
  · obtain ⟨rfl, -⟩ := of_output_taking hu
    right
    intro j hj
    rw [hinstruction] at hj
    split at hj
    · exact Table.next_notMem _ (Option.some.inj hj ▸ hv)
    · rename_i hji
      exact hji (Option.some.inj ((h.defined j u hj hphi).symm.trans (h.defined i u hout hphi)))

end StackCoding

end JvmLowering
