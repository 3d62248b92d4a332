import JvmLowering.Body.Construction

/-!
# What changes of a body change

Equations for the values, instructions and blocks of a body after each part of a change. A value is
looked at through its origin and its readers, one by one, because sets of readers are equal only as
sets.
-/

namespace JvmLowering

/-! ### Values -/

namespace Value

variable (i : InsnId) (p : ValueId) (v : Value)

@[simp] theorem users_defineBy : (v.defineBy i).users = v.users := by
  unfold defineBy
  split <;> rfl

@[simp] theorem type_defineBy : (v.defineBy i).type = v.type := by
  unfold defineBy
  split <;> rfl

/-- A phi stays as it is, and anything else is made by the instruction. -/
theorem defineBy_cases : v.defineBy i = v ∨ (v.defineBy i).isPhi = false ∧
    (v.defineBy i).definition? = some i := by
  unfold defineBy
  split
  · exact Or.inr ⟨rfl, rfl⟩
  · exact Or.inl rfl
  · exact Or.inr ⟨rfl, rfl⟩

/-- Who makes a value hangs on where it comes from alone. -/
theorem origin_defineBy_congr {v w : Value} (h : v.origin = w.origin) :
    (v.defineBy i).origin = (w.defineBy i).origin := by
  obtain ⟨origin, type, users⟩ := v
  obtain ⟨origin', type', users'⟩ := w
  simp only at h
  subst h
  cases origin <;> rfl

@[simp] theorem origin_addReader : (v.addReader i).origin = v.origin := rfl

@[simp] theorem type_addReader : (v.addReader i).type = v.type := rfl

@[simp] theorem phis_addReader : (v.addReader i).users.phis = v.users.phis := rfl

theorem mem_addReader {j : InsnId} : j ∈ (v.addReader i).users.instructions ↔
    j = i ∨ j ∈ v.users.instructions := by
  rw [eq_comm]
  simp [addReader]

@[simp] theorem origin_removeReader : (v.removeReader i).origin = v.origin := rfl

@[simp] theorem type_removeReader : (v.removeReader i).type = v.type := rfl

@[simp] theorem phis_removeReader : (v.removeReader i).users.phis = v.users.phis := rfl

theorem mem_removeReader {j : InsnId} : j ∈ (v.removeReader i).users.instructions ↔
    j ≠ i ∧ j ∈ v.users.instructions := by
  rw [ne_comm]
  simp [removeReader]

theorem mem_addPhiReader {q : ValueId} : q ∈ (v.addPhiReader p).users.phis ↔
    q = p ∨ q ∈ v.users.phis := by
  rw [eq_comm]
  simp [addPhiReader]

end Value

/-! ### Readers of the inputs of an instruction -/

section AddReaders

variable (i : InsnId) (inputs : List ValueId) (t : Table .value Value) (v : ValueId)

/-- Makes an instruction a reader of some values. -/
def addReaders : Table .value Value :=
  inputs.foldl (fun values v => values.modify v (·.addReader i)) t

theorem size_addReaders : (addReaders i inputs t).size = t.size := by
  induction inputs generalizing t with
  | nil => rfl
  | cons w inputs ih => exact (ih _).trans (Table.size_modify _ _ _)

/-- What a reader does not change stays. -/
theorem get_addReaders_congr {β : Type} (f : Value → β) (hf : ∀ v, f (v.addReader i) = f v) :
    f ((addReaders i inputs t).get v) = f (t.get v) := by
  induction inputs generalizing t with
  | nil => rfl
  | cons w inputs ih =>
    refine (ih _).trans ?_
    rw [Table.get_modify]
    split
    · exact hf _
    · rfl

theorem mem_addReaders {j : InsnId} :
    j ∈ ((addReaders i inputs t).get v).users.instructions ↔
      j = i ∧ v ∈ inputs ∧ v ∈ t ∨ j ∈ (t.get v).users.instructions := by
  induction inputs generalizing t with
  | nil => simp [addReaders]
  | cons w inputs ih =>
    refine (ih _).trans ?_
    rw [Table.mem_modify, Table.get_modify]
    split
    · rename_i h
      rw [Value.mem_addReader, h.1, List.mem_cons]
      grind
    · rename_i h
      rw [List.mem_cons]
      grind

end AddReaders

/-! ### Bodies -/

namespace Body

variable (b : Body) (v w : ValueId) (i j : InsnId) (k l : BlockId)

section Modify

theorem value_modifyValue (f : Value → Value) :
    (b.modifyValue v f).value w = if v = w ∧ w ∈ b.values then f (b.value w) else b.value w :=
  Table.get_modify _ _ _ _

@[simp] theorem instruction_modifyValue (f : Value → Value) :
    (b.modifyValue v f).instruction j = b.instruction j := rfl

@[simp] theorem value_modifyBlock (f : Block → Block) : (b.modifyBlock k f).value w = b.value w :=
  rfl

theorem block_modifyBlock (f : Block → Block) :
    (b.modifyBlock k f).block l = if k = l ∧ l ∈ b.blocks then f (b.block l) else b.block l :=
  Table.get_modify _ _ _ _

@[simp] theorem value_modifyInstruction (f : Instruction → Instruction) :
    (b.modifyInstruction i f).value w = b.value w := rfl

theorem instruction_modifyInstruction (f : Instruction → Instruction) :
    (b.modifyInstruction i f).instruction j = if i = j ∧ j ∈ b.instructions then f (b.instruction j)
      else b.instruction j :=
  Table.get_modify _ _ _ _

/-- What a change of values does not touch stays. -/
theorem value_modifyValue_congr {β : Type} (p : Value → β) {f : Value → Value}
    (hf : ∀ x, p (f x) = p x) :
    p ((b.modifyValue v f).value w) = p (b.value w) := by
  rw [value_modifyValue]
  split
  · exact hf _
  · rfl

/-- What a change of instructions does not touch stays. -/
theorem instruction_modifyInstruction_congr {β : Type} (p : Instruction → β)
    {f : Instruction → Instruction} (hf : ∀ x, p (f x) = p x) :
    p ((b.modifyInstruction i f).instruction j) = p (b.instruction j) := by
  rw [instruction_modifyInstruction]
  split
  · exact hf _
  · rfl

theorem value_pushValue (x : Value) : (b.pushValue x).2.value w = if w = b.values.next then x
    else b.value w :=
  Table.get_push _ _ _

@[simp] theorem block_pushValue (x : Value) : (b.pushValue x).2.block l = b.block l := rfl

theorem value_of_notMem {b : Body} {v : ValueId} (h : v ∉ b.values) : b.value v = default :=
  Table.get_of_notMem h

theorem instruction_of_notMem {b : Body} {i : InsnId} (h : i ∉ b.instructions) :
    b.instruction i = default :=
  Table.get_of_notMem h

theorem block_of_notMem {b : Body} {k : BlockId} (h : k ∉ b.blocks) : b.block k = default :=
  Table.get_of_notMem h

end Modify

/-! ### A new instruction -/

section PushInstruction

variable (insn : Instruction)

theorem fst_pushInstruction : (b.pushInstruction insn).1 = b.instructions.next := rfl

theorem values_pushInstruction :
    (b.pushInstruction insn).2.values =
      insn.output.elim (addReaders b.instructions.next insn.inputs b.values) fun v =>
        (addReaders b.instructions.next insn.inputs b.values).modify v
          (·.defineBy b.instructions.next) := rfl

theorem mem_values_pushInstruction {v : ValueId} : v ∈ (b.pushInstruction insn).2.values ↔
    v ∈ b.values := by
  rw [Table.mem_def, Table.mem_def, values_pushInstruction]
  cases insn.output <;> simp [size_addReaders]

theorem mem_instructions_pushInstruction {j : InsnId} :
    j ∈ (b.pushInstruction insn).2.instructions ↔ j ∈ b.instructions ∨ j = b.instructions.next :=
  Table.mem_push

theorem mem_blocks_pushInstruction {l : BlockId} : l ∈ (b.pushInstruction insn).2.blocks ↔
    l ∈ b.blocks := by
  simp only [pushInstruction]
  split
  · exact Table.mem_modify
  · rfl

theorem instruction_pushInstruction :
    (b.pushInstruction insn).2.instruction j = if j = b.instructions.next then insn
      else b.instruction j :=
  Table.get_push _ _ _

/-- A new instruction can only change whether its block throws. -/
theorem block_pushInstruction :
    ∃ throwing, (b.pushInstruction insn).2.block l = { b.block l with throwing } := by
  simp only [pushInstruction, block]
  split
  · rw [Table.get_modify]
    split
    · exact ⟨true, rfl⟩
    · exact ⟨(b.block l).throwing, rfl⟩
  · exact ⟨(b.block l).throwing, rfl⟩

theorem origin_pushInstruction :
    ((b.pushInstruction insn).2.value v).origin =
      if insn.output = some v ∧ v ∈ b.values then ((b.value v).defineBy b.instructions.next).origin
      else (b.value v).origin := by
  have hread := get_addReaders_congr b.instructions.next insn.inputs b.values v Value.origin
    fun _ => rfl
  unfold value
  rw [values_pushInstruction]
  cases ho : insn.output with
  | none => simpa using hread
  | some w =>
    simp only [Option.elim_some, Table.get_modify, Option.some.injEq, Table.mem_def,
      size_addReaders]
    split
    · exact Value.origin_defineBy_congr _ hread
    · exact hread

theorem phis_pushInstruction :
    ((b.pushInstruction insn).2.value v).users.phis = (b.value v).users.phis := by
  have hread := get_addReaders_congr b.instructions.next insn.inputs b.values v (·.users.phis)
    fun _ => rfl
  unfold value
  rw [values_pushInstruction]
  cases ho : insn.output with
  | none => exact hread
  | some w =>
    simp only [Option.elim_some, Table.get_modify]
    split
    · rw [Value.users_defineBy]
      exact hread
    · exact hread

theorem type_pushInstruction : ((b.pushInstruction insn).2.value v).type = (b.value v).type := by
  have hread := get_addReaders_congr b.instructions.next insn.inputs b.values v Value.type
    fun _ => rfl
  unfold value
  rw [values_pushInstruction]
  cases ho : insn.output with
  | none => exact hread
  | some w =>
    simp only [Option.elim_some, Table.get_modify]
    split
    · rw [Value.type_defineBy]
      exact hread
    · exact hread

theorem mem_readers_pushInstruction {j : InsnId} :
    j ∈ ((b.pushInstruction insn).2.value v).users.instructions ↔
      j = b.instructions.next ∧ v ∈ insn.inputs ∧ v ∈ b.values ∨
        j ∈ (b.value v).users.instructions := by
  unfold value
  rw [values_pushInstruction, ← mem_addReaders]
  cases ho : insn.output with
  | none => rfl
  | some w =>
    simp only [Option.elim_some, Table.get_modify]
    split
    · rw [Value.users_defineBy]
    · rfl

end PushInstruction

/-! ### New inputs and outputs -/

section Replace

variable (n : Nat) (new : ValueId)

theorem instruction_replaceInput {b : Body} {i : InsnId} (hi : i ∈ b.instructions) :
    (b.replaceInput i n new).instruction j =
      if j = i then { b.instruction i with inputs := (b.instruction i).inputs.set n new }
        else b.instruction j := by
  unfold replaceInput
  split
  · rename_i hn
    rw [List.getElem?_eq_none_iff] at hn
    split
    · rename_i hji
      rw [hji, List.set_eq_of_length_le hn]
    · rfl
  · rw [instruction_modifyValue, apply_ite (instruction · j), instruction_modifyValue, ite_self,
      instruction_modifyInstruction]
    by_cases hji : j = i
    · subst hji
      simp [hi]
    · simp [hji, Ne.symm hji]

theorem mem_values_replaceInput {v : ValueId} : v ∈ (b.replaceInput i n new).values ↔
    v ∈ b.values := by
  unfold replaceInput
  split
  · rfl
  · refine Table.mem_modify.trans ?_
    split
    · rfl
    · exact Table.mem_modify

theorem mem_instructions_replaceInput {j : InsnId} : j ∈ (b.replaceInput i n new).instructions ↔
    j ∈ b.instructions := by
  unfold replaceInput
  split
  · rfl
  · simp only [modifyValue]
    split <;> exact Table.mem_modify

theorem blocks_replaceInput : (b.replaceInput i n new).blocks = b.blocks := by
  unfold replaceInput
  split
  · rfl
  · simp only [modifyValue]
    split <;> rfl

theorem origin_replaceInput : ((b.replaceInput i n new).value v).origin = (b.value v).origin := by
  unfold replaceInput
  split
  · rfl
  · refine (value_modifyValue_congr _ _ _ Value.origin fun x => Value.origin_addReader i x).trans ?_
    split
    · rfl
    · exact value_modifyValue_congr _ _ _ Value.origin fun x => Value.origin_removeReader i x

theorem type_replaceInput : ((b.replaceInput i n new).value v).type = (b.value v).type := by
  unfold replaceInput
  split
  · rfl
  · refine (value_modifyValue_congr _ _ _ Value.type fun x => Value.type_addReader i x).trans ?_
    split
    · rfl
    · exact value_modifyValue_congr _ _ _ Value.type fun x => Value.type_removeReader i x

theorem method_replaceInput : (b.replaceInput i n new).method = b.method := by
  unfold replaceInput
  split
  · rfl
  · simp only [modifyValue]
    split <;> rfl

theorem phis_replaceInput :
    ((b.replaceInput i n new).value v).users.phis = (b.value v).users.phis := by
  unfold replaceInput
  split
  · rfl
  · refine (value_modifyValue_congr _ _ _ (·.users.phis) fun x => Value.phis_addReader i x).trans ?_
    split
    · rfl
    · exact value_modifyValue_congr _ _ _ (·.users.phis) fun x => Value.phis_removeReader i x

/-- The instruction reads the new input, and no longer the old one unless that is among its other
inputs. -/
theorem mem_readers_replaceInput {j : InsnId} {old : ValueId}
    (hold : (b.instruction i).inputs[n]? = some old) :
    j ∈ ((b.replaceInput i n new).value v).users.instructions ↔
      j = i ∧ v = new ∧ v ∈ b.values ∨
        j ∈ (b.value v).users.instructions ∧
          ¬ (j = i ∧ v = old ∧ old ∉ (b.instruction i).inputs.set n new) := by
  -- the old input is no longer read, unless it is an input at another position too
  have hremoved : ∃ c : Body, b.replaceInput i n new = c.modifyValue new (·.addReader i) ∧
      (v ∈ c.values ↔ v ∈ b.values) ∧
      (j ∈ (c.value v).users.instructions ↔ j ∈ (b.value v).users.instructions ∧
      ¬ (j = i ∧ v = old ∧ old ∉ (b.instruction i).inputs.set n new)) := by
    unfold replaceInput
    rw [hold]
    by_cases hin : old ∈ (b.instruction i).inputs.set n new
    · refine ⟨_, rfl, ?_, ?_⟩
      · rw [if_pos hin]
        rfl
      · simp [hin]
    · refine ⟨_, rfl, ?_, ?_⟩
      · rw [if_neg hin]
        exact Table.mem_modify
      · rw [if_neg hin, value_modifyValue]
        split
        · rename_i hv
          obtain ⟨rfl, -⟩ := hv
          rw [Value.mem_removeReader]
          simp [hin, and_comm]
        · rename_i hv
          -- a value that is not there cannot lose readers, but it has none either
          by_cases hvo : v = old
          · subst hvo
            have hempty : b.value v = default := value_of_notMem fun h => hv ⟨rfl, h⟩
            simp [hempty, default]
          · simp [hvo]
  obtain ⟨c, hbody, hmem, hread⟩ := hremoved
  -- then the new input gets the reader
  rw [hbody, value_modifyValue, ← hread]
  by_cases hv : new = v ∧ v ∈ c.values
  · rw [if_pos hv, Value.mem_addReader]
    simp [← hv.1, hv.1 ▸ hmem.1 hv.2]
  · rw [if_neg hv]
    refine ⟨Or.inr, fun h => h.resolve_left ?_⟩
    rintro ⟨-, rfl, hv'⟩
    exact hv ⟨rfl, hmem.2 hv'⟩

theorem instruction_replaceOutput {b : Body} {i : InsnId} (hi : i ∈ b.instructions) :
    (b.replaceOutput i new).instruction j = if j = i then
      { b.instruction i with output := some new } else b.instruction j := by
  rw [replaceOutput, instruction_modifyValue, instruction_modifyInstruction]
  by_cases hji : j = i
  · subst hji
    simp [hi]
  · simp [hji, Ne.symm hji]

theorem mem_values_replaceOutput {v : ValueId} : v ∈ (b.replaceOutput i new).values ↔
    v ∈ b.values := Table.mem_modify

theorem mem_instructions_replaceOutput {j : InsnId} : j ∈ (b.replaceOutput i new).instructions ↔
    j ∈ b.instructions :=
  Table.mem_modify

theorem origin_replaceOutput (h : v ≠ new) :
    ((b.replaceOutput i new).value v).origin = (b.value v).origin := by
  rw [replaceOutput, value_modifyValue, if_neg fun hv => h hv.1.symm, value_modifyInstruction]

theorem type_replaceOutput : ((b.replaceOutput i new).value v).type = (b.value v).type :=
  value_modifyValue_congr _ _ _ Value.type fun x => Value.type_defineBy i x

theorem users_replaceOutput : ((b.replaceOutput i new).value v).users = (b.value v).users :=
  value_modifyValue_congr _ _ _ Value.users fun x => Value.users_defineBy i x

end Replace

/-! ### New lists of instructions -/

theorem block_setInstructions {b : Body} {k : BlockId} (hk : k ∈ b.blocks) (is : List InsnId) :
    (b.setInstructions k is).block l =
      { b.block l with instructions := if l = k then is else (b.block l).instructions } := by
  rw [setInstructions, block_modifyBlock]
  by_cases hlk : l = k
  · subst hlk
    simp [hk]
  · simp [hlk, Ne.symm hlk]

end Body

end JvmLowering
