import JvmLowering.Proofs.Body.Built
import Mathlib.Logic.Relation

/-!
# Rewriting a body into stack code

Stack code is written by a few kinds of changes: stack entries and instructions are added, and the
inputs and outputs of the instruction that is converted are replaced. Whatever holds through each of
them holds through all of them.

* `Body.Change`, `Body.Changes`: the changes;
* `Body.Retains`: what they leave of a body;
* `Body.Closed`: all that is referred to is there.
-/

namespace JvmLowering

namespace Body

variable {b b' b'' : Body} {i j : InsnId} {v w : ValueId} {k l : BlockId} {stored : ValueId → Prop}

/-- A change on the way to stack code. Of the instructions that are there, only the given one is
touched, and only some values are stored. -/
inductive Change (i : InsnId) (stored : ValueId → Prop) : Body → Body → Prop
  | entry (b : Body) (slot : StackSlot) (type : DeclaredType ClassId) :
      Change i stored b (b.pushStackValue slot type).2
  | push {b : Body} {insn : Instruction} (inputs : ∀ v ∈ insn.inputs, v ∈ b.values)
      (output : ∀ v, insn.output = some v →
        v ∈ b.values ∧ ((b.value v).isStack = true ∨ insn.operation = .store ∧ stored v))
      (block : insn.block ∈ b.blocks) : Change i stored b (b.pushInstruction insn).2
  | input {b : Body} {n : Nat} {v : ValueId} (there : i ∈ b.instructions) (mem : v ∈ b.values) :
      Change i stored b (b.replaceInput i n v)
  | output {b : Body} {v : ValueId} (there : i ∈ b.instructions) (mem : v ∈ b.values)
      (stack : (b.value v).isStack = true) :
      Change i stored b (b.replaceOutput i v)

/-- Some changes, one after the other. -/
abbrev Changes (i : InsnId) (stored : ValueId → Prop) : Body → Body → Prop :=
  Relation.ReflTransGen (Change i stored)

/-! ### What stays -/

/-- The value is made by a store. -/
def IsStored (b : Body) (v : ValueId) : Prop :=
  ∃ j ∈ b.instructions, (b.value v).origin = .instruction j ∧ (b.instruction j).operation = .store

/-- The second body has all that the first one has. Phis stay what they are, and other values stay
where they are made or are stored. -/
structure Retains (b b' : Body) : Prop where
  method : b'.method = b.method
  mem_values : ∀ v ∈ b.values, v ∈ b'.values
  type : ∀ v ∈ b.values, (b'.value v).type = (b.value v).type
  phi : ∀ v l operands, (b.value v).origin = .phi l operands → (b'.value v).origin = .phi l operands
  made : ∀ v j, (b.value v).origin = .instruction j → (b'.value v).origin = .instruction j ∨
    b'.IsStored v
  mem_instructions : ∀ j ∈ b.instructions, j ∈ b'.instructions
  operation : ∀ j ∈ b.instructions, (b'.instruction j).operation = (b.instruction j).operation
  mem_blocks : ∀ l, l ∈ b'.blocks ↔ l ∈ b.blocks
  block : ∀ l, ∃ instructions throwing, b'.block l = { b.block l with instructions, throwing }

theorem Retains.refl (b : Body) : Retains b b :=
  ⟨rfl, fun _ hv => hv, fun _ _ => rfl, fun _ _ _ ho => ho, fun _ _ ho => Or.inl ho,
    fun _ hj => hj, fun _ _ => rfl,
    fun _ => Iff.rfl, fun l => ⟨_, (b.block l).throwing, rfl⟩⟩

theorem Retains.isStored (h : Retains b b') (hv : b.IsStored v) : b'.IsStored v := by
  obtain ⟨j, hj, ho, hop⟩ := hv
  rcases h.made v j ho with ho' | hstored
  · exact ⟨j, h.mem_instructions j hj, ho', (h.operation j hj).trans hop⟩
  · exact hstored

theorem Retains.trans (h : Retains b b') (h' : Retains b' b'') : Retains b b'' where
  method := h'.method.trans h.method
  mem_values v hv := h'.mem_values v (h.mem_values v hv)
  type v hv := (h'.type v (h.mem_values v hv)).trans (h.type v hv)
  phi v l operands ho := h'.phi v l operands (h.phi v l operands ho)
  made v j ho := (h.made v j ho).elim (h'.made v j) fun hstored => Or.inr (h'.isStored hstored)
  mem_instructions j hj := h'.mem_instructions j (h.mem_instructions j hj)
  operation j hj := (h'.operation j (h.mem_instructions j hj)).trans (h.operation j hj)
  mem_blocks l := (h'.mem_blocks l).trans (h.mem_blocks l)
  block l := by
    obtain ⟨instructions, throwing, hl⟩ := h.block l
    obtain ⟨instructions', throwing', hl'⟩ := h'.block l
    exact ⟨instructions', throwing', by rw [hl', hl]⟩

theorem Retains.phis (h : Retains b b') (l : BlockId) : (b'.block l).phis = (b.block l).phis := by
  obtain ⟨_, _, hl⟩ := h.block l
  rw [hl]

theorem Retains.predecessors (h : Retains b b') (l : BlockId) :
    (b'.block l).predecessors = (b.block l).predecessors := by
  obtain ⟨_, _, hl⟩ := h.block l
  rw [hl]

theorem Retains.successors (h : Retains b b') (l : BlockId) :
    (b'.block l).successors = (b.block l).successors := by
  obtain ⟨_, _, hl⟩ := h.block l
  rw [hl]

theorem isStack_iff {x : Value} :
    x.isStack = true ↔ ¬ ∀ slot definition, x.origin ≠ .stack slot definition := by
  unfold Value.isStack
  split <;> simp_all

theorem Retains.exists_maker (h : Retains b b') (hv : (b.value v).origin = .instruction i) :
    ∃ j, (b'.value v).origin = .instruction j := by
  rcases h.made v i hv with ho | ⟨j, -, ho, -⟩
  · exact ⟨i, ho⟩
  · exact ⟨j, ho⟩

/-- What is not on the stack does not get there. -/
theorem Retains.isStack (h : Retains b b') (hv : (b.value v).isStack = false) :
    (b'.value v).isStack = false := by
  cases ho : (b.value v).origin with
  | instruction j =>
    obtain ⟨j', ho'⟩ := h.exists_maker ho
    simp [Value.isStack, ho']
  | phi l operands => simp [Value.isStack, h.phi v l operands ho]
  | stack slot definition => simp [Value.isStack, ho] at hv

theorem value_pushStackValue (hv : v ∈ b.values) (slot : StackSlot) (type : DeclaredType ClassId) :
    (b.pushStackValue slot type).2.value v = b.value v := by
  rw [pushStackValue, value_pushValue, if_neg]
  rintro rfl
  exact Table.next_notMem _ hv

/-- Only what is not there is on the stack by default. -/
theorem mem_values_of_origin (h : ∀ slot definition, (b.value v).origin ≠ .stack slot definition) :
    v ∈ b.values :=
  Classical.byContradiction fun hv => h ⟨0, .null⟩ none (by rw [value_of_notMem hv]; rfl)

theorem instruction_pushInstruction_of_mem (insn : Instruction) (hj : j ∈ b.instructions) :
    (b.pushInstruction insn).2.instruction j = b.instruction j := by
  rw [instruction_pushInstruction, if_neg]
  rintro rfl
  exact Table.next_notMem _ hj

/-- A value that an instruction makes is stored by a store that is added. -/
theorem isStored_pushInstruction {insn : Instruction} (hv : (b.value v).origin = .instruction j)
    (hout : insn.output = some v) (hop : insn.operation = .store) :
    (b.pushInstruction insn).2.IsStored v := by
  have hmem : v ∈ b.values := mem_values_of_origin (by simp [hv])
  refine ⟨b.instructions.next, (mem_instructions_pushInstruction b insn).2 (Or.inr rfl), ?_, ?_⟩
  · rw [origin_pushInstruction, if_pos ⟨hout, hmem⟩]
    simp [Value.defineBy, hv]
  · rw [instruction_pushInstruction, if_pos rfl, hop]

theorem retains_pushStackValue (slot : StackSlot) (type : DeclaredType ClassId) :
    Retains b (b.pushStackValue slot type).2 := by
  have hvalue : ∀ v, (∀ slot definition, (b.value v).origin ≠ .stack slot definition) →
      (b.pushStackValue slot type).2.value v = b.value v :=
    fun v hv => value_pushStackValue (mem_values_of_origin hv) slot type
  refine ⟨rfl, fun v hv => Table.mem_push.2 (Or.inl hv), fun v hv => ?_, fun v l operands ho => ?_,
    fun v j ho => Or.inl ?_, fun j hj => hj, fun j _ => rfl, fun _ => Iff.rfl,
    fun l => ⟨_, (b.block l).throwing, rfl⟩⟩
  · rw [value_pushStackValue hv]
  · rw [hvalue v (by simp [ho]), ho]
  · rw [hvalue v (by simp [ho]), ho]

theorem retains_pushInstruction {insn : Instruction}
    (houtput : ∀ v, insn.output = some v → (b.value v).isStack = true ∨ insn.operation = .store) :
    Retains b (b.pushInstruction insn).2 := by
  refine ⟨rfl, fun v hv => (mem_values_pushInstruction b insn).2 hv,
    fun v _ => type_pushInstruction b v insn, fun v l operands ho => ?_, fun v j ho => ?_,
    fun j hj => (mem_instructions_pushInstruction b insn).2 (Or.inl hj), fun j hj => ?_,
    fun l => mem_blocks_pushInstruction b insn, fun l => ?_⟩
  · rw [origin_pushInstruction]
    split
    · simp [Value.defineBy, ho]
    · exact ho
  · by_cases hv : insn.output = some v
    · exact Or.inr
        (isStored_pushInstruction ho hv ((houtput v hv).resolve_left (by simp [Value.isStack, ho])))
    · rw [origin_pushInstruction, if_neg fun h => hv h.1]
      exact Or.inl ho
  · rw [instruction_pushInstruction_of_mem insn hj]
  · obtain ⟨throwing, hl⟩ := block_pushInstruction b l insn
    exact ⟨_, throwing, hl⟩

theorem retains_replaceInput (n : Nat) (w : ValueId) (hi : i ∈ b.instructions) :
    Retains b (b.replaceInput i n w) := by
  refine ⟨method_replaceInput .., fun v hv => (mem_values_replaceInput ..).2 hv,
    fun v _ => type_replaceInput .., fun v l operands ho => (origin_replaceInput ..).trans ho,
    fun v j ho => Or.inl ((origin_replaceInput ..).trans ho),
    fun j hj => (mem_instructions_replaceInput ..).2 hj, fun j _ => ?_,
    fun l => by rw [blocks_replaceInput], fun l => ?_⟩
  · rw [instruction_replaceInput _ _ _ hi]
    split
    · rename_i hji
      rw [hji]
    · rfl
  · exact ⟨_, (b.block l).throwing, by rw [Body.block, Body.block, blocks_replaceInput]⟩

theorem retains_replaceOutput (hi : i ∈ b.instructions) (hw : (b.value w).isStack = true) :
    Retains b (b.replaceOutput i w) := by
  have hne : ∀ v, (∀ slot definition, (b.value v).origin ≠ .stack slot definition) → v ≠ w := by
    rintro v hv rfl
    exact isStack_iff.1 hw hv
  refine ⟨rfl, fun v hv => (mem_values_replaceOutput ..).2 hv, fun v _ => type_replaceOutput ..,
    fun v l operands ho => ?_, fun v j ho => Or.inl ?_,
    fun j hj => (mem_instructions_replaceOutput ..).2 hj, fun j _ => ?_, fun l => Iff.rfl,
    fun l => ⟨_, (b.block l).throwing, rfl⟩⟩
  · rw [origin_replaceOutput _ _ _ _ (hne v (by simp [ho])), ho]
  · rw [origin_replaceOutput _ _ _ _ (hne v (by simp [ho])), ho]
  · rw [instruction_replaceOutput _ _ hi]
    split
    · rename_i hji
      rw [hji]
    · rfl

theorem Change.retains (h : Change i stored b b') : Retains b b' := by
  cases h with
  | entry slot type => exact retains_pushStackValue slot type
  | push inputs output block =>
    exact retains_pushInstruction fun v hv => (output v hv).2.imp_right And.left
  | input there mem => exact retains_replaceInput _ _ there
  | output there mem stack => exact retains_replaceOutput there stack

theorem Changes.retains (h : Changes i stored b b') : Retains b b' := by
  induction h with
  | refl => exact .refl b
  | tail _ hlast ih => exact ih.trans hlast.retains

/-- A value that is neither on the stack nor stored comes from where it did. -/
theorem Change.origin (h : Change i stored b b') (hv : ¬ stored v)
    (hstack : ∀ slot definition, (b.value v).origin ≠ .stack slot definition) :
    (b'.value v).origin = (b.value v).origin := by
  cases h with
  | entry slot type => rw [value_pushStackValue (mem_values_of_origin hstack)]
  | @push insn inputs output block =>
    rw [origin_pushInstruction, if_neg]
    rintro ⟨hout, -⟩
    rcases (output v hout).2 with hs | ⟨-, hs⟩
    · exact isStack_iff.1 hs hstack
    · exact hv hs
  | input => exact origin_replaceInput ..
  | @output w there mem stack =>
    refine origin_replaceOutput _ _ _ _ ?_
    rintro rfl
    exact isStack_iff.1 stack hstack

theorem Changes.origin (h : Changes i stored b b') (hv : ¬ stored v)
    (hstack : ∀ slot definition, (b.value v).origin ≠ .stack slot definition) :
    (b'.value v).origin = (b.value v).origin := by
  induction h with
  | refl => rfl
  | tail _ hlast ih => exact (hlast.origin hv (ih ▸ hstack)).trans ih

/-- Which phis read a value stays. -/
theorem Changes.phiReaders (h : Changes i stored b b') (v : ValueId) :
    (b'.value v).users.phis = (b.value v).users.phis := by
  induction h with
  | refl => rfl
  | @tail c c' _ hlast ih =>
    rw [← ih]
    cases hlast with
    | entry slot type =>
      rw [pushStackValue, value_pushValue]
      split
      · rename_i hv
        rw [hv, value_of_notMem (Table.next_notMem _)]
        rfl
      · rfl
    | push => exact phis_pushInstruction ..
    | input => exact phis_replaceInput ..
    | output => rw [users_replaceOutput]

/-- The other instructions stay as they are. -/
theorem Changes.instruction (h : Changes i stored b b') (hj : j ∈ b.instructions) (hne : j ≠ i) :
    b'.instruction j = b.instruction j := by
  induction h with
  | refl => rfl
  | @tail c c' hfirst hlast ih =>
    have hj' := (Changes.retains hfirst).mem_instructions j hj
    rw [← ih]
    cases hlast with
    | entry => rfl
    | push => exact instruction_pushInstruction_of_mem _ hj'
    | input there => rw [instruction_replaceInput _ _ _ there, if_neg hne]
    | output there => rw [instruction_replaceOutput _ _ there, if_neg hne]

/-- No block gets or loses instructions. -/
theorem Changes.instructions (h : Changes i stored b b') (l : BlockId) :
    (b'.block l).instructions = (b.block l).instructions := by
  induction h with
  | refl => rfl
  | tail _ hlast ih =>
    rw [← ih]
    cases hlast with
    | entry => rfl
    | @push insn =>
      obtain ⟨throwing, hl⟩ := block_pushInstruction _ l insn
      rw [hl]
    | input => rw [Body.block, Body.block, blocks_replaceInput]
    | output => rfl

/-! ### Nothing dangles -/

/-- All that is referred to is there. -/
structure Closed (b : Body) : Prop where
  definition : ∀ v j, (b.value v).definition? = some j → j ∈ b.instructions
  phi : ∀ v l operands, (b.value v).origin = .phi l operands → l ∈ b.blocks ∧
    ∀ u ∈ operands, u ∈ b.values
  readers : ∀ v, ∀ j ∈ (b.value v).users.instructions, j ∈ b.instructions
  phiReaders : ∀ v, ∀ p ∈ (b.value v).users.phis, p ∈ b.values
  inputs : ∀ j ∈ b.instructions, ∀ v ∈ (b.instruction j).inputs, v ∈ b.values
  output : ∀ j ∈ b.instructions, ∀ v, (b.instruction j).output = some v → v ∈ b.values
  place : ∀ j ∈ b.instructions, (b.instruction j).block ∈ b.blocks
  instructions : ∀ l, ∀ j ∈ (b.block l).instructions, j ∈ b.instructions
  phis : ∀ l, ∀ p ∈ (b.block l).phis, p ∈ b.values
  predecessors : ∀ l, ∀ k ∈ (b.block l).predecessors, k ∈ b.blocks
  successors : ∀ l, ∀ k ∈ (b.block l).successors, k ∈ b.blocks

theorem WellFormed.closed (hb : b.WellFormed) : b.Closed := by
  refine ⟨fun v j hj => (hb.output_of_definition hj).1, fun v l operands ho => ⟨?_, fun u hu => ?_⟩,
    fun v j hj => ?_, fun v p hp => ?_, fun j _ => hb.inputs_mem j,
    fun j _ v hv => (hb.origin_of_output j v hv).1, fun j hj => ?_,
    fun l j hj => ((hb.mem_instructions l j).1 hj).1, fun l p hp => hb.mem_values_of_phi hp,
    fun l k hk => ?_, hb.successors_mem⟩
  · refine Classical.byContradiction fun hl => ?_
    have hp := (hb.mem_phis l v).2 ⟨operands, ho⟩
    rw [block_of_notMem hl] at hp
    exact List.not_mem_nil hp
  · refine hb.operands_mem v u ?_
    rw [Body.operands, Value.operands, ho]
    exact hu
  · refine Classical.byContradiction fun hj' => ?_
    have hv := (hb.mem_readers v j).1 hj
    rw [instruction_of_notMem hj'] at hv
    exact List.not_mem_nil hv
  · exact mem_values_of_isPhi (isPhi_of_operand ((hb.mem_phiReaders v p).1 hp))
  · exact mem_blocks_of_instruction (hb.mem_instructionsOf hj)
  · have hl : l ∈ (b.block k).successors := by
      rw [← List.count_pos_iff, hb.edges, List.count_pos_iff]
      exact hk
    exact mem_blocks_of_successor hl

/-- A change leaves nothing dangling if what it adds refers to what is there. -/
theorem Closed.change (hc : b.Closed) (hr : Retains b b')
    (hlists : ∀ l, ∀ j ∈ (b'.block l).instructions, j ∈ b'.instructions)
    (hphis : ∀ v, ∀ p ∈ (b'.value v).users.phis, p ∈ (b.value v).users.phis)
    (hreaders : ∀ v, ∀ j ∈ (b'.value v).users.instructions, j ∈ (b.value v).users.instructions ∨
      j ∈ b'.instructions) (horigin : ∀ v, (b'.value v).origin = (b.value v).origin ∨
      (b'.value v).isPhi = false ∧ ∀ j, (b'.value v).definition? = some j → j ∈ b'.instructions)
    (hinstruction : ∀ j ∈ b'.instructions, j ∈ b.instructions ∧ b'.instruction j = b.instruction j ∨
      (∀ v ∈ (b'.instruction j).inputs, v ∈ b'.values) ∧
        (∀ v, (b'.instruction j).output = some v → v ∈ b'.values) ∧
        (b'.instruction j).block ∈ b'.blocks) : b'.Closed := by
  refine ⟨fun v j hj => ?_, fun v l operands ho => ?_, fun v j hj => ?_, fun v p hp => ?_,
    fun j hj v hv => ?_, fun j hj v hv => ?_, fun j hj => ?_, hlists, fun l p hp => ?_,
    fun l k hk => ?_, fun l k hk => ?_⟩
  -- where values come from
  · rcases horigin v with ho | ⟨-, hdefinition⟩
    · rw [Value.definition?, ho] at hj
      exact hr.mem_instructions j (hc.definition v j hj)
    · exact hdefinition j hj
  · rcases horigin v with ho' | ⟨hphi, -⟩
    · obtain ⟨hl, hoperands⟩ := hc.phi v l operands (ho' ▸ ho)
      exact ⟨(hr.mem_blocks l).2 hl, fun u hu => hr.mem_values u (hoperands u hu)⟩
    · simp [Value.isPhi, ho] at hphi
  -- who reads them
  · exact (hreaders v j hj).elim (fun hj => hr.mem_instructions j (hc.readers v j hj)) id
  · exact hr.mem_values p (hc.phiReaders v p (hphis v p hp))
  -- what instructions refer to
  · rcases hinstruction j hj with ⟨hold, hsame⟩ | ⟨hinputs, -, -⟩
    · exact hr.mem_values v (hc.inputs j hold v (hsame ▸ hv))
    · exact hinputs v hv
  · rcases hinstruction j hj with ⟨hold, hsame⟩ | ⟨-, houtput, -⟩
    · exact hr.mem_values v (hc.output j hold v (hsame ▸ hv))
    · exact houtput v hv
  · rcases hinstruction j hj with ⟨hold, hsame⟩ | ⟨-, -, hblock⟩
    · exact hsame ▸ (hr.mem_blocks _).2 (hc.place j hold)
    · exact hblock
  -- what blocks refer to
  · exact hr.mem_values p (hc.phis l p (hr.phis l ▸ hp))
  · exact (hr.mem_blocks k).2 (hc.predecessors l k (hr.predecessors l ▸ hk))
  · exact (hr.mem_blocks k).2 (hc.successors l k (hr.successors l ▸ hk))

theorem Change.closed_of (h : Change i stored b b') (hc : b.Closed)
    (hreaders : ∀ v, ∀ j ∈ (b'.value v).users.instructions, j ∈ (b.value v).users.instructions ∨
      j ∈ b'.instructions) (horigin : ∀ v, (b'.value v).origin = (b.value v).origin ∨
      (b'.value v).isPhi = false ∧ ∀ j, (b'.value v).definition? = some j → j ∈ b'.instructions)
    (hinstruction : ∀ j ∈ b'.instructions, j ∈ b.instructions ∧ b'.instruction j = b.instruction j ∨
      (∀ v ∈ (b'.instruction j).inputs, v ∈ b'.values) ∧
        (∀ v, (b'.instruction j).output = some v → v ∈ b'.values) ∧
        (b'.instruction j).block ∈ b'.blocks) : b'.Closed := by
  refine hc.change h.retains (fun l j hj => ?_) (fun v p hp => ?_) hreaders horigin hinstruction
  · rw [Changes.instructions (.single h)] at hj
    exact h.retains.mem_instructions j (hc.instructions l j hj)
  · rwa [Changes.phiReaders (.single h)] at hp

theorem Closed.pushStackValue (hc : b.Closed) (slot : StackSlot) (type : DeclaredType ClassId) :
    (b.pushStackValue slot type).2.Closed := by
  have h : Change .first (fun _ => False) b _ := .entry b slot type
  refine h.closed_of hc (fun v j hj => Or.inl ?_) (fun v => ?_) fun j hj => Or.inl ⟨hj, rfl⟩
  · rw [Body.pushStackValue, value_pushValue] at hj
    split at hj
    · simp at hj
    · exact hj
  · rw [Body.pushStackValue, value_pushValue]
    split
    · exact Or.inr ⟨rfl, fun j hj => by simp [Value.definition?] at hj⟩
    · exact Or.inl rfl

theorem Closed.pushInstruction {insn : Instruction} (hc : b.Closed)
    (hinputs : ∀ v ∈ insn.inputs, v ∈ b.values) (houtput : ∀ v, insn.output = some v →
      v ∈ b.values ∧ ((b.value v).isStack = true ∨ insn.operation = .store ∧ stored v))
    (hblock : insn.block ∈ b.blocks) : (b.pushInstruction insn).2.Closed := by
  have h : Change .first stored b _ := .push hinputs houtput hblock
  have hr := h.retains
  have hnext : b.instructions.next ∈ (b.pushInstruction insn).2.instructions :=
    (mem_instructions_pushInstruction b insn).2 (Or.inr rfl)
  refine h.closed_of hc (fun v j hj => ?_) (fun v => ?_) fun j hj => ?_
  · rcases (mem_readers_pushInstruction b v insn).1 hj with ⟨rfl, -⟩ | hj
    · exact Or.inr hnext
    · exact Or.inl hj
  · have horigin := origin_pushInstruction b v insn
    split at horigin
    · rcases Value.defineBy_cases b.instructions.next (b.value v) with hsame | ⟨hphi, hdefinition⟩
      · exact Or.inl (horigin.trans (congrArg Value.origin hsame))
      · right
        rw [Value.isPhi, Value.definition?, horigin]
        exact ⟨hphi, fun j hj => Option.some.inj (hdefinition.symm.trans hj) ▸ hnext⟩
    · exact Or.inl horigin
  · rcases (mem_instructions_pushInstruction b insn).1 hj with hj | rfl
    · exact Or.inl ⟨hj, instruction_pushInstruction_of_mem insn hj⟩
    · right
      rw [instruction_pushInstruction, if_pos rfl]
      exact ⟨fun v hv => hr.mem_values v (hinputs v hv),
        fun v hv => hr.mem_values v (houtput v hv).1, (hr.mem_blocks _).2 hblock⟩

theorem Closed.replaceInput (hc : b.Closed) (n : Nat) (hi : i ∈ b.instructions)
    (hw : w ∈ b.values) :
    (b.replaceInput i n w).Closed := by
  have h : Change i (fun _ => False) b _ := .input (n := n) hi hw
  have hr := h.retains
  refine h.closed_of hc (fun v j hj => ?_) (fun v => Or.inl (origin_replaceInput ..)) fun j hj => ?_
  · cases hold : (b.instruction i).inputs[n]? with
    | none =>
      unfold Body.replaceInput at hj
      rw [hold] at hj
      exact Or.inl hj
    | some old =>
      rcases (mem_readers_replaceInput _ _ _ _ _ hold).1 hj with ⟨rfl, -⟩ | ⟨hj, -⟩
      · exact Or.inr (hr.mem_instructions j hi)
      · exact Or.inl hj
  · have hj' := (mem_instructions_replaceInput ..).1 hj
    rw [instruction_replaceInput _ _ _ hi]
    split
    · refine Or.inr
        ⟨fun v hv => hr.mem_values v ?_, fun v hv => hr.mem_values v (hc.output i hi v hv),
        (hr.mem_blocks _).2 (hc.place i hi)⟩
      exact (List.mem_or_eq_of_mem_set hv).elim (hc.inputs i hi v) fun h => h ▸ hw
    · exact Or.inl ⟨hj', rfl⟩

theorem Closed.replaceOutput (hc : b.Closed) (hi : i ∈ b.instructions) (hw : w ∈ b.values)
    (hstack : (b.value w).isStack = true) :
    (b.replaceOutput i w).Closed := by
  have h : Change i (fun _ => False) b _ := .output hi hw hstack
  have hr := h.retains
  refine h.closed_of hc (fun v j hj => Or.inl ?_) (fun v => ?_) fun j hj => ?_
  · rwa [users_replaceOutput] at hj
  · by_cases hv : v = w
    · subst hv
      have hvalue : (b.replaceOutput i v).value v = (b.value v).defineBy i := by
        rw [Body.replaceOutput, value_modifyValue, if_pos ⟨rfl, hw⟩, value_modifyInstruction]
      rw [hvalue]
      rcases Value.defineBy_cases i (b.value v) with hsame | ⟨hphi, hdefinition⟩
      · exact Or.inl (congrArg Value.origin hsame)
      · exact Or.inr
          ⟨hphi, fun j hj => Option.some.inj (hdefinition.symm.trans hj) ▸ hr.mem_instructions i hi⟩
    · exact Or.inl (origin_replaceOutput _ _ _ _ hv)
  · have hj' := (mem_instructions_replaceOutput ..).1 hj
    rw [instruction_replaceOutput _ _ hi]
    split
    · exact Or.inr ⟨fun v hv => hr.mem_values v (hc.inputs i hi v hv),
        fun v hv => Option.some.inj hv ▸ hr.mem_values w hw, (hr.mem_blocks _).2 (hc.place i hi)⟩
    · exact Or.inl ⟨hj', rfl⟩

theorem Change.closed (h : Change i stored b b') (hc : b.Closed) : b'.Closed := by
  cases h with
  | entry slot type => exact hc.pushStackValue slot type
  | push inputs output block => exact hc.pushInstruction inputs output block
  | input there mem => exact hc.replaceInput _ there mem
  | output there mem stack => exact hc.replaceOutput there mem stack

theorem Changes.closed (h : Changes i stored b b') (hc : b.Closed) : b'.Closed := by
  induction h with
  | refl => exact hc
  | tail _ hlast ih => exact hlast.closed ih

/-! ### Lists of instructions and readers -/

theorem retains_setInstructions (hk : k ∈ b.blocks) (is : List InsnId) :
    Retains b (b.setInstructions k is) :=
  ⟨rfl, fun _ hv => hv, fun _ _ => rfl, fun _ _ _ ho => ho, fun _ _ ho => Or.inl ho,
    fun _ hj => hj, fun _ _ => rfl,
    fun _ => Table.mem_modify, fun l => ⟨_, (b.block l).throwing, block_setInstructions l hk is⟩⟩

theorem Closed.setInstructions (hc : b.Closed) (hk : k ∈ b.blocks) {is : List InsnId}
    (his : ∀ j ∈ is, j ∈ b.instructions) :
    (b.setInstructions k is).Closed := by
  refine hc.change (retains_setInstructions hk is) (fun l j hj => ?_) (fun _ _ hp => hp)
    (fun _ _ hj => Or.inl hj) (fun _ => Or.inl rfl) fun _ hj => Or.inl ⟨hj, rfl⟩
  rw [block_setInstructions _ hk] at hj
  simp only at hj
  split at hj
  · exact his j hj
  · exact hc.instructions l j hj

theorem retains_removePhiReader (v p : ValueId) :
    Retains b (b.modifyValue v (·.removePhiReader p)) := by
  have horigin : ∀ w, ((b.modifyValue v (·.removePhiReader p)).value w).origin =
      (b.value w).origin :=
    fun w => value_modifyValue_congr _ _ _ Value.origin fun _ => rfl
  refine ⟨rfl, fun _ hv => Table.mem_modify.2 hv, fun w _ => ?_,
    fun w _ _ ho => (horigin w).trans ho, fun w _ ho => Or.inl ((horigin w).trans ho),
    fun _ hj => hj, fun _ _ => rfl, fun _ => Iff.rfl, fun l => ⟨_, (b.block l).throwing, rfl⟩⟩
  exact value_modifyValue_congr _ _ _ Value.type fun _ => rfl

theorem Closed.removePhiReader (hc : b.Closed) (v p : ValueId) :
    (b.modifyValue v (·.removePhiReader p)).Closed := by
  refine hc.change (retains_removePhiReader v p) hc.instructions (fun w q hq => ?_)
    (fun w j hj => Or.inl ?_)
    (fun w => Or.inl (value_modifyValue_congr _ _ _ Value.origin fun _ => rfl)) fun _ hj =>
    Or.inl ⟨hj, rfl⟩
  · rw [value_modifyValue] at hq
    split at hq
    · exact (Std.TreeSet.mem_erase.1 hq).2
    · exact hq
  · rw [value_modifyValue] at hj
    split at hj <;> exact hj

end Body

end JvmLowering
