import JvmLowering.Proofs.Attempt
import JvmLowering.Proofs.Lowering.Execution
import JvmLowering.Proofs.Lowering.Steps

/-!
# What stack code says

Turning a body into stack code changes values, instructions and blocks step by step. Seen as
commands, the instructions of each block become the commands of its instructions one after the
other: the inputs are pushed, the operation acts on them, and the output is stored or dropped.

* `Body.Keeps`, `StackCoding.Kept`: what every change keeps;
* `StackCoding.translate`: the commands of an instruction;
* `StackCoding.insertLoadsAndStores_ok`: the commands of every block.
-/

namespace JvmLowering

theorem Table.nodup_indices {k : Entity} {α : Type} (t : Table k α) : t.indices.Nodup :=
  List.Pairwise.map Index.mk (fun _ _ hne h => hne (Index.mk.inj h)) List.nodup_range

/-! ### Commands -/

/-- What an instruction does hangs on its operation and on how many inputs and outputs it has, loads
and stores apart. -/
theorem Instruction.command_congr {insn insn' : Instruction}
    (hop : insn'.operation = insn.operation) (hlen : insn'.inputs.length = insn.inputs.length)
    (hout : insn'.output.isSome = insn.output.isSome) (hload : insn.operation ≠ .load)
    (hstore : insn.operation ≠ .store) : insn'.command = insn.command := by
  unfold command
  rw [hop, hlen, hout]
  split <;> simp_all

theorem Instruction.operation_of_command {insn : Instruction} {operation : Operation} {arity : Nat}
    {pushes : Bool} (h : insn.command = .act operation arity pushes) :
    insn.operation = operation := by
  unfold command at h
  split at h
  · simp at h
  · cases hh : insn.inputs.head? <;> simp [hh] at h
  · cases ho : insn.output <;> simp [ho] at h
  · simp at h
  · exact (Command.act.inj h).1

/-! ### Instructions are kept -/

namespace Body

variable {b b' b'' : Body} {i j : InsnId} {v w : ValueId} {k l : BlockId}

/-- Instructions stay where they are, with their operations and their commands. -/
structure Keeps (b b' : Body) : Prop where
  mem : ∀ i ∈ b.instructions, i ∈ b'.instructions
  operation : ∀ i ∈ b.instructions, (b'.instruction i).operation = (b.instruction i).operation
  command : ∀ i ∈ b.instructions, (b'.instruction i).command = (b.instruction i).command

theorem Keeps.refl (b : Body) : Keeps b b := ⟨fun _ hi => hi, fun _ _ => rfl, fun _ _ => rfl⟩

theorem Keeps.trans (h : Keeps b b') (h' : Keeps b' b'') : Keeps b b'' :=
  ⟨fun i hi => h'.mem i (h.mem i hi), fun i hi => (h'.operation i (h.mem i hi)).trans
    (h.operation i hi),
    fun i hi => (h'.command i (h.mem i hi)).trans (h.command i hi)⟩

theorem keeps_of_instruction (hmem : ∀ i ∈ b.instructions, i ∈ b'.instructions)
    (h : ∀ i ∈ b.instructions, b'.instruction i = b.instruction i) : Keeps b b' :=
  ⟨hmem, fun i hi => by rw [h i hi], fun i hi => by rw [h i hi]⟩

theorem keeps_replaceInput {n : Nat} {new : ValueId} (hi : i ∈ b.instructions)
    (hload : (b.instruction i).operation ≠ .load) (hstore : (b.instruction i).operation ≠ .store) :
    Keeps b (b.replaceInput i n new) := by
  refine ⟨fun j hj => (mem_instructions_replaceInput ..).2 hj, fun j _ => ?_, fun j _ => ?_⟩
  · rw [instruction_replaceInput _ _ _ hi]
    split
    · rename_i hji
      rw [hji]
    · rfl
  · rw [instruction_replaceInput _ _ _ hi]
    split
    · rename_i hji
      rw [hji]
      exact Instruction.command_congr rfl (List.length_set ..) rfl hload hstore
    · rfl

theorem keeps_replaceOutput {new : ValueId} (hi : i ∈ b.instructions)
    (hout : (b.instruction i).output.isSome) (hload : (b.instruction i).operation ≠ .load)
    (hstore : (b.instruction i).operation ≠ .store) :
    Keeps b (b.replaceOutput i new) := by
  refine ⟨fun j hj => (mem_instructions_replaceOutput ..).2 hj, fun j _ => ?_, fun j _ => ?_⟩
  · rw [instruction_replaceOutput _ _ hi]
    split
    · rename_i hji
      rw [hji]
    · rfl
  · rw [instruction_replaceOutput _ _ hi]
    split
    · rename_i hji
      rw [hji]
      exact Instruction.command_congr rfl rfl (by simp [hout]) hload hstore
    · rfl

/-! ### A new instruction, with a stack entry that it makes -/

/-- What is there after an instruction has been made, seen from what was there before. -/
structure WithInstruction (b b' : Body) (insn : Instruction) : Prop where
  mem_values : ∀ w ∈ b.values, w ∈ b'.values
  mem_instructions : ∀ j, j ∈ b'.instructions ↔ j ∈ b.instructions ∨ j = b.instructions.next
  mem_blocks : ∀ l, l ∈ b'.blocks ↔ l ∈ b.blocks
  instruction : ∀ j, b'.instruction j = if j = b.instructions.next then insn else b.instruction j
  phiReaders : ∀ w ∈ b.values, (b'.value w).users.phis = (b.value w).users.phis
  readers : ∀ w ∈ b.values, ∀ j, j ∈ (b'.value w).users.instructions ↔
    j = b.instructions.next ∧ w ∈ insn.inputs ∨ j ∈ (b.value w).users.instructions
  block : ∀ l, ∃ throwing, b'.block l = { b.block l with throwing }

theorem WithInstruction.keeps {insn : Instruction} (h : WithInstruction b b' insn) :
    Keeps b b' := by
  refine keeps_of_instruction (fun i hi => (h.mem_instructions i).2 (Or.inl hi)) fun i hi => ?_
  rw [h.instruction, if_neg]
  rintro rfl
  exact Table.next_notMem _ hi

theorem withInstruction_push (b : Body) (insn : Instruction) :
    WithInstruction b (b.pushInstruction insn).2 insn where
  mem_values w hw := (mem_values_pushInstruction b insn).2 hw
  mem_instructions j := mem_instructions_pushInstruction b insn
  mem_blocks l := mem_blocks_pushInstruction b insn
  instruction j := instruction_pushInstruction b j insn
  phiReaders w _ := phis_pushInstruction b w insn
  readers w hw j := by
    rw [mem_readers_pushInstruction]
    simp [hw]
  block l := block_pushInstruction b l insn

/-- The same if a value has been pushed first. -/
theorem withInstruction_pushValue (b : Body) (x : Value) (insn : Instruction) :
    WithInstruction b ((b.pushValue x).2.pushInstruction insn).2 insn := by
  have h := withInstruction_push (b.pushValue x).2 insn
  have hmem : ∀ w ∈ b.values, w ∈ (b.pushValue x).2.values :=
    fun w hw => Table.mem_push.2 (Or.inl hw)
  have hvalue : ∀ w ∈ b.values, (b.pushValue x).2.value w = b.value w := by
    intro w hw
    rw [value_pushValue, if_neg]
    rintro rfl
    exact Table.next_notMem _ hw
  refine ⟨fun w hw => h.mem_values w (hmem w hw), h.mem_instructions, h.mem_blocks, h.instruction,
    fun w hw => ?_, fun w hw j => ?_, h.block⟩
  · rw [h.phiReaders w (hmem w hw), hvalue w hw]
  · rw [h.readers w (hmem w hw), hvalue w hw]
    rfl

/-- Only its output is changed by an instruction that is pushed after a value. -/
theorem origin_pushValue_pushInstruction {x : Value} {insn : Instruction} (hw : w ∈ b.values)
    (hne : insn.output ≠ some w) :
    (((b.pushValue x).2.pushInstruction insn).2.value w).origin = (b.value w).origin := by
  rw [origin_pushInstruction, if_neg fun h => hne h.1, value_pushValue, if_neg]
  rintro rfl
  exact Table.next_notMem _ hw

end Body

/-! ### What is kept on the way to stack code -/

/-- The constant that an operation makes. -/
def Operation.constant? : Operation → Option Constant
  | constant c => some c
  | _ => none

/-- Something reads the value. -/
def Users.Reading (u : Users) : Prop := (∃ i, i ∈ u.instructions) ∨ ∃ p, p ∈ u.phis

theorem Users.isEmpty_iff {u : Users} : u.isEmpty = true ↔ ¬ u.Reading := by
  simp [isEmpty, Reading, Std.TreeSet.isEmpty_iff_forall_not_mem]

namespace StackCoding

open Body

variable {c : StackCoding} {b b' b'' : Body} {i j : InsnId} {v w : ValueId} {k l : BlockId}

theorem constant?_of_instruction (ho : (b.value v).origin = .instruction i) :
    c.constant? b v = if c.settings.rematerialize then (b.instruction i).operation.constant?
      else none := by
  unfold StackCoding.constant? Body.definition?
  simp only [Value.definition?, Value.isStack, ho, Option.map_some, Bool.or_false]
  obtain ⟨operation, _, _, _, _⟩ := b.instruction i
  cases operation <;> simp [Operation.constant?]

theorem constant?_eq_none_iff (ho : (b.value v).origin = .instruction i) :
    c.constant? b v = none ↔
      ((b.instruction i).operation.isConstant && c.settings.rematerialize) = false := by
  rw [constant?_of_instruction ho]
  cases c.settings.rematerialize <;> cases (b.instruction i).operation <;>
    simp [Operation.constant?, Operation.isConstant]

theorem constant?_of_phi {operands : List ValueId} (ho : (b.value v).origin = .phi k operands) :
    c.constant? b v = none := by
  simp [StackCoding.constant?, Body.definition?, Value.definition?, ho]

/-- The value is made by a store now, and it is not pushed as a constant. -/
structure Restored (c : StackCoding) (b b' : Body) (v : ValueId) : Prop where
  notConstant : c.constant? b v = none
  made : ∃ i, (b.value v).origin = .instruction i
  stored : ∃ j ∈ b'.instructions, (b'.value v).origin = .instruction j ∧
    (b'.instruction j).operation = .store

/-- What a body on its way to stack code has kept of the body that it comes from. -/
structure Kept (c : StackCoding) (b b' : Body) : Prop extends Keeps b b' where
  mem_values : ∀ v ∈ b.values, v ∈ b'.values
  mem_blocks : ∀ k, k ∈ b'.blocks ↔ k ∈ b.blocks
  origin : ∀ v ∈ b.values, (b'.value v).origin = (b.value v).origin ∨ Restored c b b' v
  block : ∀ k, ∃ instructions throwing, b'.block k = { b.block k with instructions, throwing }

theorem Kept.refl (c : StackCoding) (b : Body) : Kept c b b :=
  ⟨Keeps.refl b, fun _ hv => hv, fun _ => Iff.rfl, fun _ _ => Or.inl rfl,
    fun k => ⟨_, (b.block k).throwing, rfl⟩⟩

/-- A change keeps what has been kept if it changes the origins of values only by storing them. -/
theorem Kept.change (h : Kept c b b') (hkeeps : Keeps b' b'')
    (hvalues : ∀ v ∈ b'.values, v ∈ b''.values) (hblocks : ∀ k, k ∈ b''.blocks ↔ k ∈ b'.blocks)
    (horigin : ∀ v ∈ b.values, (b''.value v).origin = (b'.value v).origin ∨ Restored c b b'' v)
    (hblock : ∀ k, ∃ instructions throwing,
      b''.block k = { b'.block k with instructions, throwing }) : Kept c b b'' := by
  refine ⟨h.toKeeps.trans hkeeps, fun v hv => hvalues v (h.mem_values v hv),
    fun k => (hblocks k).trans (h.mem_blocks k), fun v hv => ?_, fun k => ?_⟩
  · rcases horigin v hv with ho | hr
    · rcases h.origin v hv with ho' | ⟨hc, hm, j, hj, hjo, hop⟩
      · exact Or.inl (ho.trans ho')
      · exact Or.inr ⟨hc, hm, j, hkeeps.mem j hj, ho.trans hjo, (hkeeps.operation j hj).trans hop⟩
    · exact Or.inr hr
  · obtain ⟨instructions, throwing, hk⟩ := hblock k
    obtain ⟨instructions', throwing', hk'⟩ := h.block k
    exact ⟨instructions, throwing, by rw [hk, hk']⟩

theorem Kept.successors (h : Kept c b b') (k : BlockId) :
    (b'.block k).successors = (b.block k).successors := by
  obtain ⟨_, _, hk⟩ := h.block k
  rw [hk]

theorem Kept.predecessors (h : Kept c b b') (k : BlockId) :
    (b'.block k).predecessors = (b.block k).predecessors := by
  obtain ⟨_, _, hk⟩ := h.block k
  rw [hk]

theorem Kept.phis (h : Kept c b b') (k : BlockId) : (b'.block k).phis = (b.block k).phis := by
  obtain ⟨_, _, hk⟩ := h.block k
  rw [hk]

/-- No value of a body that is built is on the stack. -/
theorem isStack_eq_false (hb : b.WellFormed) (hv : v ∈ b.values) : (b.value v).isStack = false := by
  have hs := hb.not_stack v hv
  unfold Value.isStack
  split
  · rename_i slot definition ho
    exact absurd ho (hs slot definition)
  · rfl

theorem Kept.isStack (hb : b.WellFormed) (h : Kept c b b') (hv : v ∈ b.values) :
    (b'.value v).isStack = false := by
  rcases h.origin v hv with ho | ⟨-, -, j, -, ho, -⟩
  · rw [← isStack_eq_false hb hv, Value.isStack, Value.isStack, ho]
  · rw [Value.isStack, ho]

theorem Kept.operands (h : Kept c b b') (hv : v ∈ b.values) : b'.operands v = b.operands v := by
  unfold Body.operands Value.operands
  rcases h.origin v hv with ho | ⟨-, ⟨i, hi⟩, j, -, ho, -⟩
  · rw [ho]
  · rw [ho, hi]

/-- The same constants are pushed in place of values. -/
theorem Kept.constant? (hb : b.WellFormed) (h : Kept c b b') (hv : v ∈ b.values) :
    c.constant? b' v = c.constant? b v := by
  rcases h.origin v hv with ho | ⟨hc, -, j, -, ho, hop⟩
  · cases hvo : (b.value v).origin with
    | instruction i =>
      rw [constant?_of_instruction hvo, constant?_of_instruction (ho.trans hvo),
        h.operation i (hb.output_of_origin v i hvo).1]
    | phi l operands => rw [constant?_of_phi hvo, constant?_of_phi (ho.trans hvo)]
    | stack slot definition => exact absurd hvo (hb.not_stack v hv slot definition)
  · rw [hc, constant?_of_instruction ho, hop]
    exact ite_self none

/-- The readers that a body on its way to stack code has kept. A value is read iff it was read
before, unless it is pushed as a constant. -/
structure ReadersKept (c : StackCoding) (b b' : Body) : Prop where
  read : ∀ v ∈ b.values, c.constant? b v = none → (b.value v).users.Reading →
    (b'.value v).users.Reading
  unread : ∀ v ∈ b.values, (b'.value v).users.Reading → (b.value v).users.Reading

theorem ReadersKept.refl (c : StackCoding) (b : Body) : ReadersKept c b b :=
  ⟨fun _ _ _ h => h, fun _ _ h => h⟩

theorem ReadersKept.change (h : ReadersKept c b b')
    (hreading : ∀ v ∈ b.values, (b''.value v).users.Reading ↔ (b'.value v).users.Reading) :
    ReadersKept c b b'' :=
  ⟨fun v hv hc hr => (hreading v hv).2 (h.read v hv hc hr),
    fun v hv hr => h.unread v hv ((hreading v hv).1 hr)⟩

end StackCoding

/-! ### Emitting instructions -/

namespace Body

variable {b b' : Body} {is : List InsnId}

/-- The commands of some instructions. -/
def commands (b : Body) (is : List InsnId) : List Command :=
  is.map fun i => (b.instruction i).command

@[simp] theorem commands_append (b : Body) (is js : List InsnId) :
    b.commands (is ++ js) = b.commands is ++ b.commands js :=
  List.map_append

theorem Keeps.commands (h : Keeps b b') (his : ∀ i ∈ is, i ∈ b.instructions) :
    b'.commands is = b.commands is :=
  List.map_congr_left fun i hi => h.command i (his i hi)

end Body

namespace Emitter

open Body

variable {e e' e'' : Emitter} {i : InsnId} {xs ys : List Command}

/-- Some commands have been emitted, and no block has been touched. -/
structure Emits (e e' : Emitter) (commands : List Command) : Prop where
  keeps : Keeps e.body e'.body
  instructions : ∀ k, (e'.body.block k).instructions = (e.body.block k).instructions
  emitted : ∃ is, e'.emitted = e.emitted ++ is ∧ (∀ i ∈ is, i ∈ e'.body.instructions) ∧
    e'.body.commands is = commands

theorem Emits.refl (e : Emitter) : Emits e e [] :=
  ⟨Keeps.refl _, fun _ => rfl, [], (List.append_nil _).symm,
    fun _ h => absurd h List.not_mem_nil, rfl⟩

theorem Emits.trans (h : Emits e e' xs) (h' : Emits e' e'' ys) : Emits e e'' (xs ++ ys) := by
  obtain ⟨is, he, his, hxs⟩ := h.emitted
  obtain ⟨js, he', hjs, hys⟩ := h'.emitted
  refine ⟨h.keeps.trans h'.keeps, fun k => (h'.instructions k).trans (h.instructions k),
    is ++ js, ?_, ?_, ?_⟩
  · rw [he', he, List.append_assoc]
  · intro i hi
    rcases List.mem_append.1 hi with hi | hi
    · exact h'.keeps.mem i (his i hi)
    · exact hjs i hi
  · rw [commands_append, h'.keeps.commands his, hxs, hys]

/-- A change of the body that emits nothing. -/
theorem emits_nil (hkeeps : Keeps e.body e'.body)
    (hinstructions : ∀ k, (e'.body.block k).instructions = (e.body.block k).instructions)
    (hemitted : e'.emitted = e.emitted) : Emits e e' [] :=
  ⟨hkeeps, hinstructions, [], by rw [hemitted, List.append_nil],
    fun _ h => absurd h List.not_mem_nil, rfl⟩

theorem emits_place (hi : i ∈ e.body.instructions) :
    Emits e (e.place i) [(e.body.instruction i).command] :=
  ⟨Keeps.refl _, fun _ => rfl, [i], rfl, fun j hj => by rwa [List.mem_singleton.1 hj], rfl⟩

theorem emits_emit (e : Emitter) (insn : Instruction) : Emits e (e.emit insn) [insn.command] := by
  have h := withInstruction_push e.body insn
  refine ⟨h.keeps, fun k => ?_, [e.body.instructions.next], rfl, ?_, ?_⟩
  · obtain ⟨throwing, hk⟩ := h.block k
    show ((e.body.pushInstruction insn).2.block k).instructions = _
    rw [hk]
  · intro i hi
    exact (h.mem_instructions i).2 (Or.inr (List.mem_singleton.1 hi))
  · exact congrArg (fun insn => [Instruction.command insn]) ((h.instruction _).trans (if_pos rfl))

theorem popEntries_eq {α : Type} (e : Emitter) (items : List α) :
    ∃ stack, e.popEntries items = { e with stack } := by
  induction items generalizing e with
  | nil => exact ⟨e.stack, rfl⟩
  | cons a items ih =>
    obtain ⟨stack, h⟩ := ih e.popEntry
    exact ⟨stack, h⟩

theorem body_popEntries {α : Type} (e : Emitter) (items : List α) :
    (e.popEntries items).body = e.body := by
  obtain ⟨stack, hpopped⟩ := popEntries_eq e items
  rw [hpopped]

end Emitter

namespace StackCoding

open Body Emitter

variable {c : StackCoding} {b b' : Body} {e e' e'' : Emitter} {i j : InsnId} {v w : ValueId}
  {k l : BlockId} {n : Nat} {line : Option UInt32} {xs ys : List Command}

/-! ### Pushing a value -/

/-- The command that pushes a value. -/
def pushCommand (c : StackCoding) (b : Body) (v : ValueId) : Command :=
  match c.constant? b v with
  | some constant => .act (.constant constant) 0 true
  | none => .load v

/-- What has happened when a value has been pushed. -/
structure PushedOperand (c : StackCoding) (e e' : Emitter) (v entry : ValueId) : Prop where
  entry : entry = e.body.values.next
  emits : Emits e e' [c.pushCommand e.body v]
  origin : ∀ w ∈ e.body.values, (e'.body.value w).origin = (e.body.value w).origin
  grown : ∃ insn, WithInstruction e.body e'.body insn ∧ insn.inputs = if c.constant? e.body v =
    none then [v] else []

theorem constant?_pushValue {x : Value} (hv : v ∈ b.values) :
    c.constant? (b.pushValue x).2 v = c.constant? b v := by
  have hvalue : (b.pushValue x).2.value v = b.value v := by
    rw [value_pushValue, if_neg]
    rintro rfl
    exact Table.next_notMem _ hv
  unfold StackCoding.constant? Body.definition?
  rw [hvalue]
  rfl

/-- A new stack entry and the instruction that makes it. -/
theorem pushEntry_emit (e : Emitter) (v : ValueId) (type : StackType ClassId) (event : Event)
    (insn : Instruction) :
    ∃ x : Value, (((e.pushEntry v type).2.report event).emit insn).body =
      ((e.body.pushValue x).2.pushInstruction insn).2 ∧
      Emits e (((e.pushEntry v type).2.report event).emit insn) [insn.command] := by
  have hpushed : Emits e ((e.pushEntry v type).2.report event) [] :=
    emits_nil (keeps_of_instruction (fun _ hi => hi) fun _ _ => rfl) (fun _ => rfl) rfl
  exact ⟨_, rfl, hpushed.trans (emits_emit _ insn)⟩

theorem pushOperand_ok (c : StackCoding) (k : BlockId) (line : Option UInt32)
    (hv : v ∈ e.body.values) :
    PushedOperand c e (c.pushOperand k line e v).2 v (c.pushOperand k line e v).1 := by
  have hconstant : c.constant? (e.pushEntry v (c.stackType e.body v)).2.body v =
    c.constant? e.body v := constant?_pushValue hv
  have hentry : ∀ w ∈ e.body.values, some e.body.values.next ≠ some w := by
    intro w hw h
    rw [← Option.some.inj h] at hw
    exact Table.next_notMem _ hw
  unfold pushOperand
  simp only [hconstant]
  cases hc : c.constant? e.body v with
  | some constant =>
    obtain ⟨x, hbody, hemits⟩ :=
      pushEntry_emit e v (c.stackType e.body v) (.constantPushed constant v)
        ⟨.constant constant, [], some e.body.values.next, k, line⟩
    refine ⟨rfl, ?_, fun w hw => ?_, _, hbody ▸ withInstruction_pushValue _ _ _, ?_⟩
    · rw [pushCommand, hc]
      exact hemits
    · exact hbody ▸ origin_pushValue_pushInstruction hw (hentry w hw)
    · simp [hc]
  | none =>
    obtain ⟨x, hbody, hemits⟩ := pushEntry_emit e v (c.stackType e.body v) (.loaded v)
      ⟨.load, [v], some e.body.values.next, k, line⟩
    refine ⟨rfl, ?_, fun w hw => ?_, _, hbody ▸ withInstruction_pushValue _ _ _, ?_⟩
    · rw [pushCommand, hc]
      exact hemits
    · exact hbody ▸ origin_pushValue_pushInstruction hw (hentry w hw)
    · simp [hc]

/-! ### Converting an instruction -/

/-- How far the conversion of an instruction has come. -/
structure Progress (c : StackCoding) (b : Body) (i : InsnId) (e e' : Emitter)
    (commands : List Command) : Prop where
  emits : Emits e e' commands
  kept : Kept c b e'.body
  readers : ReadersKept c b e'.body
  others : ∀ j ∈ e.body.instructions, j ≠ i → e'.body.instruction j = e.body.instruction j

theorem Progress.trans (h : Progress c b i e e' xs) (h' : Progress c b i e' e'' ys) :
    Progress c b i e e'' (xs ++ ys) :=
  ⟨h.emits.trans h'.emits, h'.kept, h'.readers,
    fun j hj hji => (h'.others j (h.emits.keeps.mem j hj) hji).trans (h.others j hj hji)⟩

/-- Pushing a value that is read anyway keeps everything. -/
theorem PushedOperand.kept {entry : ValueId} (hp : PushedOperand c e e' v entry)
    (hk : Kept c b e.body) : Kept c b e'.body := by
  obtain ⟨insn, hgrown, -⟩ := hp.grown
  refine hk.change hgrown.keeps hgrown.mem_values hgrown.mem_blocks
    (fun w hw => Or.inl (hp.origin w (hk.mem_values w hw))) fun l => ?_
  obtain ⟨throwing, hl⟩ := hgrown.block l
  exact ⟨_, throwing, hl⟩

theorem PushedOperand.instruction {entry : ValueId} (hp : PushedOperand c e e' v entry)
    (hj : j ∈ e.body.instructions) : e'.body.instruction j = e.body.instruction j := by
  obtain ⟨insn, hgrown, -⟩ := hp.grown
  refine (hgrown.instruction j).trans (if_neg ?_)
  rintro rfl
  exact Table.next_notMem _ hj

/-- The new entry is no value of the body. -/
theorem PushedOperand.ne_entry {entry : ValueId} (hp : PushedOperand c e e' v entry)
    (hk : Kept c b e.body) (hw : w ∈ b.values) : w ≠ entry := by
  rintro rfl
  rw [hp.entry] at hw
  exact Table.next_notMem _ (hk.mem_values _ hw)

theorem block_replaceInput (b : Body) (i : InsnId) (n : Nat) (new : ValueId) (l : BlockId) :
    (b.replaceInput i n new).block l = b.block l := by
  rw [Body.block, Body.block, blocks_replaceInput]

theorem Kept.keeps_replaceInput (hk : Kept c b b') (hi : i ∈ b.instructions)
    (hload : (b.instruction i).operation ≠ .load) (hstore : (b.instruction i).operation ≠ .store)
    (n : Nat) (new : ValueId) : Keeps b' (b'.replaceInput i n new) :=
  Body.keeps_replaceInput (hk.mem i hi) (by rwa [hk.operation i hi]) (by rwa [hk.operation i hi])

theorem Kept.replaceInput (hk : Kept c b b') (hi : i ∈ b.instructions)
    (hload : (b.instruction i).operation ≠ .load) (hstore : (b.instruction i).operation ≠ .store)
    (n : Nat) (new : ValueId) : Kept c b (b'.replaceInput i n new) :=
  hk.change (hk.keeps_replaceInput hi hload hstore n new)
    (fun _ hw => (mem_values_replaceInput ..).2 hw) (fun l => by rw [blocks_replaceInput])
    (fun _ _ => Or.inl (origin_replaceInput ..))
    fun l => ⟨_, (b'.block l).throwing, block_replaceInput b' i n new l⟩

/-- A value that is read and not pushed again as a constant is still read when an input has been
replaced by the entry that was pushed for it. -/
theorem PushedOperand.read {entry : ValueId} (hp : PushedOperand c e e' v entry) (hb : b.WellFormed)
    (hk : Kept c b e.body) (hr : ReadersKept c b e.body) (hi : i ∈ b.instructions)
    (hn : (e.body.instruction i).inputs[n]? = some v) (hw : w ∈ b.values)
    (hconstant : c.constant? b w = none) (hreading : (b.value w).users.Reading) :
    ((e'.body.replaceInput i n entry).value w).users.Reading := by
  obtain ⟨insn, hgrown, hinputs⟩ := hp.grown
  have hi' := hk.mem i hi
  have hwk := hk.mem_values w hw
  rw [← hp.instruction hi'] at hn
  by_cases hwv : w = v
  · -- the load reads the value now, whether or not the instruction still does
    subst hwv
    rw [hk.constant? hb hw, hconstant, if_pos rfl] at hinputs
    refine Or.inl ⟨e.body.instructions.next,
      (mem_readers_replaceInput _ _ _ _ _ hn).2 (Or.inr ⟨?_, ?_⟩)⟩
    · exact (hgrown.readers w hwk _).2 (Or.inl ⟨rfl, by simp [hinputs]⟩)
    · rintro ⟨rfl, -⟩
      exact Table.next_notMem _ hi'
  · -- the readers of another value are what they were
    rcases hr.read w hw hconstant hreading with ⟨j, hj⟩ | ⟨q, hq⟩
    · have hj' := (hgrown.readers w hwk j).2 (Or.inr hj)
      exact Or.inl ⟨j, (mem_readers_replaceInput _ _ _ _ _ hn).2 (Or.inr ⟨hj', fun h => hwv h.2.1⟩)⟩
    · refine Or.inr ⟨q, ?_⟩
      rw [phis_replaceInput, hgrown.phiReaders w hwk]
      exact hq

/-- Only values that were read are read then. -/
theorem PushedOperand.unread {entry : ValueId} (hp : PushedOperand c e e' v entry)
    (hk : Kept c b e.body) (hr : ReadersKept c b e.body) (hi : i ∈ b.instructions)
    (hread : (b.value v).users.Reading) (hn : (e.body.instruction i).inputs[n]? = some v)
    (hw : w ∈ b.values) (hreading : ((e'.body.replaceInput i n entry).value w).users.Reading) :
    (b.value w).users.Reading := by
  obtain ⟨insn, hgrown, hinputs⟩ := hp.grown
  have hwk := hk.mem_values w hw
  rw [← hp.instruction (hk.mem i hi)] at hn
  rcases hreading with ⟨j, hj⟩ | ⟨q, hq⟩
  · -- an instruction reads it: the load that was added, or one that read it before
    have hj' : j ∈ (e'.body.value w).users.instructions := by
      rcases (mem_readers_replaceInput _ _ _ _ _ hn).1 hj with ⟨-, hwe, -⟩ | ⟨hj, -⟩
      · exact absurd hwe (hp.ne_entry hk hw)
      · exact hj
    rcases (hgrown.readers w hwk j).1 hj' with ⟨-, hmem⟩ | hj
    · have hwv : w = v := by
        rw [hinputs] at hmem
        split at hmem
        · exact List.mem_singleton.1 hmem
        · exact absurd hmem List.not_mem_nil
      rwa [hwv]
    · exact hr.unread w hw (Or.inl ⟨j, hj⟩)
  · -- a phi reads it
    rw [phis_replaceInput, hgrown.phiReaders w hwk] at hq
    exact hr.unread w hw (Or.inr ⟨q, hq⟩)

theorem loadInput_ok (hb : b.WellFormed) (hk : Kept c b e.body) (hr : ReadersKept c b e.body)
    (hi : i ∈ b.instructions) (hload : (b.instruction i).operation ≠ .load)
    (hstore : (b.instruction i).operation ≠ .store) (hv : v ∈ b.values)
    (hread : (b.value v).users.Reading) (hn : (e.body.instruction i).inputs[n]? = some v)
    (h : c.loadInput k i line e (v, n) = (e', none)) :
    Progress c b i e e' [c.pushCommand b v] ∧ ∃ entry, e'.body.instruction i =
      { e.body.instruction i with inputs := (e.body.instruction i).inputs.set n entry } := by
  have hloads := c.loads k i line e v n
  rw [h] at hloads
  cases hloads with
  | pushed free =>
    have hp := pushOperand_ok c k line (hk.mem_values v hv)
    generalize c.pushOperand k line e v = pushed at hp
    obtain ⟨entry, p⟩ := pushed
    simp only at hp ⊢
    have hi' := hk.mem i hi
    have hpk := hp.kept hk
    have hip := hpk.mem i hi
    refine ⟨⟨?emits, hpk.replaceInput hi hload hstore n entry,
      ⟨fun w hw => hp.read hb hk hr hi hn hw, fun w hw => hp.unread hk hr hi hread hn hw⟩,
      fun j hj hji => ?others⟩, entry, ?changed⟩
    case emits =>
      have hnil : Emits p { p with body := p.body.replaceInput i n entry } [] :=
        emits_nil (hpk.keeps_replaceInput hi hload hstore n entry)
          (fun l => congrArg Block.instructions (block_replaceInput ..)) rfl
      have hemits := hp.emits.trans hnil
      rwa [List.append_nil, pushCommand, hk.constant? hb hv] at hemits
    case others => rw [instruction_replaceInput _ _ _ hip, if_neg hji, hp.instruction hj]
    case changed => rw [instruction_replaceInput _ _ _ hip, if_pos rfl, hp.instruction hi']

theorem loadInputs_ok (hb : b.WellFormed) (hk : Kept c b e.body) (hr : ReadersKept c b e.body)
    (hi : i ∈ b.instructions) (hload : (b.instruction i).operation ≠ .load)
    (hstore : (b.instruction i).operation ≠ .store) {vs loaded : List ValueId}
    (hvs : ∀ v ∈ vs, v ∈ b.values ∧ (b.value v).users.Reading)
    (hinputs : (e.body.instruction i).inputs = loaded ++ vs)
    (h : attemptAll (c.loadInput k i line) e (vs.zipIdx loaded.length) = (e', none)) :
    Progress c b i e e' (vs.map (c.pushCommand b)) ∧
      ∃ inputs, e'.body.instruction i = { e.body.instruction i with inputs } := by
  induction vs generalizing e loaded with
  | nil =>
    obtain rfl : e = e' := congrArg Prod.fst h
    exact ⟨⟨Emits.refl e, hk, hr, fun _ _ _ => rfl⟩, _, rfl⟩
  | cons v vs ih =>
    rw [List.zipIdx_cons] at h
    obtain ⟨hfirst, hrest⟩ := attemptAll_cons h
    obtain ⟨hv, hread⟩ := hvs v List.mem_cons_self
    have hn : (e.body.instruction i).inputs[loaded.length]? = some v := by simp [hinputs]
    obtain ⟨hprogress, entry, hinsn⟩ := loadInput_ok hb hk hr hi hload hstore hv hread hn hfirst
    have hinputs' : ((c.loadInput k i line e (v, loaded.length)).1.body.instruction i).inputs =
        (loaded ++ [entry]) ++ vs := by
      simp [hinsn, hinputs]
    obtain ⟨hprogress', inputs, hinsn'⟩ := ih hprogress.kept hprogress.readers
      (fun w hw => hvs w (List.mem_cons_of_mem v hw)) hinputs' (by simpa using hrest)
    exact ⟨hprogress.trans hprogress', inputs, by rw [hinsn', hinsn]⟩

/-- The instruction is placed so that it leaves its output in a new stack entry. -/
def placeOutput (e : Emitter) (i : InsnId) (v : ValueId) (type : StackType ClassId) : Emitter :=
  let (entry, pushed) := e.pushEntry v type
  Emitter.place { pushed with body := pushed.body.replaceOutput i entry } i

theorem placeOutput_ok (hk : Kept c b e.body) (hr : ReadersKept c b e.body)
    (hi : i ∈ b.instructions) (hload : (b.instruction i).operation ≠ .load)
    (hstore : (b.instruction i).operation ≠ .store) (hout : (e.body.instruction i).output.isSome)
    (v : ValueId) (type : StackType ClassId) :
    Progress c b i e (placeOutput e i v type) [(b.instruction i).command] := by
  obtain ⟨x, hx⟩ :
    ∃ x, (placeOutput e i v type).body =
    (e.body.pushValue x).2.replaceOutput i e.body.values.next := ⟨_, rfl⟩
  have hi' : i ∈ (e.body.pushValue x).2.instructions := hk.mem i hi
  -- the entry is new, so no value of the body is touched
  have hne : ∀ w ∈ b.values, w ≠ e.body.values.next := by
    rintro w hw rfl
    exact Table.next_notMem _ (hk.mem_values _ hw)
  have hkeeps : Keeps e.body (placeOutput e i v type).body := by
    rw [hx]
    have hpushed : Keeps e.body (e.body.pushValue x).2 :=
      keeps_of_instruction (fun _ h => h) fun _ _ => rfl
    refine hpushed.trans (keeps_replaceOutput hi' hout ?_ ?_)
    · rwa [← hk.operation i hi] at hload
    · rwa [← hk.operation i hi] at hstore
  refine ⟨⟨hkeeps, fun _ => rfl, [i], rfl, ?_, ?_⟩, ?_, ?_, fun j hj hji => ?_⟩
  · intro j hj
    rw [List.mem_singleton.1 hj]
    exact hkeeps.mem i hi'
  · rw [commands, List.map_singleton, hkeeps.command i hi', hk.command i hi]
  · refine hk.change hkeeps (fun w hw => ?_) (fun _ => Iff.rfl) (fun w hw => Or.inl ?_) fun l =>
      ⟨_, (e.body.block l).throwing, rfl⟩
    · rw [hx]
      exact (mem_values_replaceOutput ..).2 (Table.mem_push.2 (Or.inl hw))
    · rw [hx, origin_replaceOutput _ _ _ _ (hne w hw), value_pushValue, if_neg (hne w hw)]
  · refine hr.change fun w hw => ?_
    rw [hx, users_replaceOutput, value_pushValue, if_neg (hne w hw)]
  · rw [hx, instruction_replaceOutput _ _ hi', if_neg hji]
    rfl

/-- Any instruction can be emitted whose output is not of the body, or a phi, or stored by it. -/
theorem Kept.emit (hk : Kept c b e.body) (insn : Instruction)
    (houtput : ∀ w ∈ b.values, insn.output = some w →
      (∃ l operands, (b.value w).origin = .phi l operands) ∨
      insn.operation = .store ∧ c.constant? b w = none ∧ ∃ i, (b.value w).origin = .instruction i) :
    Kept c b (e.emit insn).body := by
  have hgrown := withInstruction_push e.body insn
  refine hk.change hgrown.keeps hgrown.mem_values hgrown.mem_blocks (fun w hw => ?_) fun l => ?_
  · have horigin := origin_pushInstruction e.body w insn
    split at horigin
    · rename_i hw'
      -- a store to a phi leaves the phi one; a store of an output becomes what makes it
      rcases houtput w hw hw'.1 with ⟨l, operands, hphi⟩ | ⟨hop, hconstant, i, hi⟩
      · have hphi' : (e.body.value w).origin = .phi l operands := by
          rcases hk.origin w hw with ho | ⟨-, ⟨i, hi⟩, -⟩
          · exact ho.trans hphi
          · exact absurd (hphi.symm.trans hi) Origin.noConfusion
        refine Or.inl (horigin.trans ?_)
        simp [Value.defineBy, hphi']
      · refine Or.inr ⟨hconstant, ⟨i, hi⟩, e.body.instructions.next,
          (hgrown.mem_instructions _).2 (Or.inr rfl), ?_, ?_⟩
        · obtain ⟨j, hj⟩ : ∃ j, (e.body.value w).origin = .instruction j := by
            rcases hk.origin w hw with ho | ⟨-, -, j, -, ho, -⟩
            · exact ⟨i, ho.trans hi⟩
            · exact ⟨j, ho⟩
          refine horigin.trans ?_
          simp [Value.defineBy, hj]
        · refine (congrArg Instruction.operation (hgrown.instruction _)).trans ?_
          rw [if_pos rfl, hop]
    · exact Or.inl horigin
  · obtain ⟨throwing, hl⟩ := hgrown.block l
    exact ⟨_, throwing, hl⟩

/-- An instruction that reads no value of the body can be emitted, if it stores what is made there
or makes nothing that is. -/
theorem emit_ok (hk : Kept c b e.body) (hr : ReadersKept c b e.body) (i : InsnId)
    (insn : Instruction) (hinputs : ∀ w ∈ b.values, w ∉ insn.inputs)
    (houtput : ∀ w ∈ b.values, insn.output = some w → insn.operation = .store ∧
      c.constant? b w = none ∧
      ∃ i, (b.value w).origin = .instruction i) :
        Progress c b i e (e.emit insn) [insn.command] := by
  have hgrown := withInstruction_push e.body insn
  refine ⟨emits_emit e insn, hk.emit insn fun w hw h => Or.inr (houtput w hw h), ?_,
    fun j hj _ => ?_⟩
  · refine hr.change fun w hw => ?_
    have hwk := hk.mem_values w hw
    have hread : ∀ j, j ∈ ((e.emit insn).body.value w).users.instructions ↔
        j ∈ (e.body.value w).users.instructions := by
      intro j
      refine (hgrown.readers w hwk j).trans
        ⟨fun h => h.resolve_left fun h' => hinputs w hw h'.2, Or.inr⟩
    have hphis : ((e.emit insn).body.value w).users.phis = (e.body.value w).users.phis :=
      hgrown.phiReaders w hwk
    unfold Users.Reading
    simp only [hread, hphis]
  · refine (hgrown.instruction j).trans (if_neg ?_)
    rintro rfl
    exact Table.next_notMem _ hj

/-- The output is stored once the instruction has been placed, unless nothing reads it. -/
theorem storeOutput_eq (c : StackCoding) (k : BlockId) (i : InsnId) (line : Option UInt32)
    (e : Emitter) (v : ValueId) :
    c.storeOutput k i line e v =
      (if ((placeOutput e i v (c.stackType e.body v)).body.value v).users.isEmpty then
        ((placeOutput e i v (c.stackType e.body v)).emit ⟨.pop, [e.body.values.next], none, k,
          line⟩).report (.popped v i)
      else ((placeOutput e i v (c.stackType e.body v)).emit ⟨.store, [e.body.values.next], some v,
        k, line⟩).report
        (.stored v i)).popEntry := rfl

theorem storeOutput_ok (hb : b.WellFormed) (hk : Kept c b e.body) (hr : ReadersKept c b e.body)
    (hi : i ∈ b.instructions) (hload : (b.instruction i).operation ≠ .load)
    (hstore : (b.instruction i).operation ≠ .store) (hout : (b.instruction i).output = some v)
    (hout' : (e.body.instruction i).output.isSome) (hconstant : c.constant? b v = none) :
    Progress c b i e (c.storeOutput k i line e v)
      [(b.instruction i).command, if (b.value v).users.isEmpty then .drop else .store v] := by
  obtain ⟨hv, horigin⟩ := hb.origin_of_output i v hout
  have hplaced := placeOutput_ok hk hr hi hload hstore hout' v (c.stackType e.body v)
  have hunfold := storeOutput_eq c k i line e v
  generalize placeOutput e i v (c.stackType e.body v) = placed at hplaced hunfold
  -- who reads the output has not changed: it is stored if it was to be read
  have hempty : (placed.body.value v).users.isEmpty = (b.value v).users.isEmpty := by
    rw [Bool.eq_iff_iff, Users.isEmpty_iff, Users.isEmpty_iff]
    exact not_congr ⟨hplaced.readers.unread v hv, hplaced.readers.read v hv hconstant⟩
  have hne : ∀ w ∈ b.values, w ∉ [e.body.values.next] := by
    intro w hw hmem
    rw [List.mem_singleton.1 hmem] at hw
    exact Table.next_notMem _ (hk.mem_values _ hw)
  rw [hunfold, hempty]
  split
  · have hp := hplaced.trans
      (emit_ok hplaced.kept hplaced.readers i ⟨.pop, [e.body.values.next], none, k, line⟩ hne
      fun w _ h => by simp at h)
    exact ⟨⟨hp.emits.keeps, hp.emits.instructions, hp.emits.emitted⟩, hp.kept,
      hp.readers, hp.others⟩
  · have hp := hplaced.trans
      (emit_ok hplaced.kept hplaced.readers i ⟨.store, [e.body.values.next], some v, k, line⟩ hne
      fun w _ h => ⟨rfl, Option.some.inj h ▸ hconstant, i, Option.some.inj h ▸ horigin⟩)
    exact ⟨⟨hp.emits.keeps, hp.emits.instructions, hp.emits.emitted⟩, hp.kept,
      hp.readers, hp.others⟩

/-- The commands of an instruction: its inputs are pushed, it acts on them, and its output is stored
if anything reads it. -/
def translate (c : StackCoding) (b : Body) (insn : Instruction) : List Command :=
  if insn.operation.isArgument then [insn.command]
  else if c.isDropped b insn then []
  else
    insn.inputs.map (c.pushCommand b) ++
      insn.command :: insn.output.toList.map fun v => if (b.value v).users.isEmpty then
      .drop else .store v

/-- Only constants that are pushed again are dropped, since no output is on the stack. -/
theorem isDropped_eq (hb : b.WellFormed) (hk : Kept c b b') (i : InsnId) :
    c.isDropped b'
      (b.instruction i) = ((b.instruction i).operation.isConstant && c.settings.rematerialize) := by
  have hany : (b.instruction i).output.any (fun v => (b'.value v).isStack) = false := by
    cases hout : (b.instruction i).output with
    | none => rfl
    | some v => exact hk.isStack hb (hb.origin_of_output i v hout).1
  rw [isDropped, hany, Bool.or_false]

theorem constant?_of_output (hb : b.WellFormed) (hout : (b.instruction i).output = some v)
    (hd : c.isDropped b (b.instruction i) = false) : c.constant? b v = none := by
  rw [isDropped_eq hb (Kept.refl c b)] at hd
  exact (constant?_eq_none_iff (hb.origin_of_output i v hout).2).2 hd

/-- All inputs of an instruction are pushed, and popped again when it acts on them. -/
theorem loadAll_ok (hb : b.WellFormed) (hk : Kept c b e.body) (hr : ReadersKept c b e.body)
    (hi : i ∈ b.instructions) (hload : (b.instruction i).operation ≠ .load)
    (hstore : (b.instruction i).operation ≠ .store) (hinsn : e.body.instruction i = b.instruction i)
    (h : attemptAll (c.loadInput k i line) e (b.instruction i).inputs.zipIdx = (e', none)) :
    Progress c b i e (e'.popEntries (b.instruction i).inputs)
        ((b.instruction i).inputs.map (c.pushCommand b)) ∧
      ((e'.popEntries (b.instruction i).inputs).body.instruction i).output =
        (b.instruction i).output := by
  obtain ⟨hp, inputs, hinsn'⟩ := loadInputs_ok hb hk hr hi hload hstore
    (fun v hv => ⟨hb.inputs_mem i v hv, Or.inl ⟨i, (hb.mem_readers v i).2 hv⟩⟩)
    (by rw [hinsn, List.nil_append]) h
  obtain ⟨stack, hpopped⟩ := popEntries_eq e' (b.instruction i).inputs
  rw [hpopped]
  refine ⟨⟨⟨hp.emits.keeps, hp.emits.instructions, hp.emits.emitted⟩, hp.kept,
    hp.readers, hp.others⟩, ?_⟩
  show (e'.body.instruction i).output = _
  rw [hinsn', hinsn]

theorem convert_ok (hb : b.WellFormed) (hk : Kept c b e.body) (hr : ReadersKept c b e.body)
    (hi : i ∈ b.instructions) (hload : (b.instruction i).operation ≠ .load)
    (hstore : (b.instruction i).operation ≠ .store) (hinsn : e.body.instruction i = b.instruction i)
    (h : c.convert k e i = (e', none)) :
    Progress c b i e e' (c.translate b (b.instruction i)) := by
  have hdrop : c.isDropped e.body (b.instruction i) = c.isDropped b (b.instruction i) := by
    rw [isDropped_eq hb hk, isDropped_eq hb (Kept.refl c b)]
  have hconverts := c.converts k e i
  rw [hinsn, h] at hconverts
  unfold translate
  cases hconverts with
  | argument harg =>
    rw [if_pos harg, ← hinsn]
    exact ⟨emits_place (hk.mem i hi), hk, hr, fun _ _ _ => rfl⟩
  | dropped harg hdropped =>
    rw [if_neg (Bool.eq_false_iff.1 harg), if_pos (hdrop ▸ hdropped)]
    exact ⟨emits_nil (Keeps.refl _) (fun _ => rfl) rfl, hk, hr, fun _ _ _ => rfl⟩
  | effect harg hdropped hloaded hout =>
    rw [if_neg (Bool.eq_false_iff.1 harg), if_neg (Bool.eq_false_iff.1 (hdrop ▸ hdropped))]
    obtain ⟨hp, -⟩ := loadAll_ok hb hk hr hi hload hstore hinsn hloaded
    rw [hout, ← hp.kept.command i hi]
    exact hp.trans ⟨emits_place (hp.kept.mem i hi), hp.kept, hp.readers, fun _ _ _ => rfl⟩
  | result harg hdropped hloaded hout free =>
    rw [if_neg (Bool.eq_false_iff.1 harg), if_neg (Bool.eq_false_iff.1 (hdrop ▸ hdropped))]
    obtain ⟨hp, houtput⟩ := loadAll_ok hb hk hr hi hload hstore hinsn hloaded
    rw [hout] at houtput ⊢
    exact hp.trans (storeOutput_ok hb hp.kept hp.readers hi hload hstore hout (houtput ▸ rfl)
      (constant?_of_output hb hout (hdrop ▸ hdropped)))

/-! ### Converting the blocks -/

/-- No instruction moves a value between the stack and a local variable yet. -/
def NoMoves (b : Body) : Prop :=
  ∀ i ∈ b.instructions, (b.instruction i).operation ≠ .load ∧ (b.instruction i).operation ≠ .store

theorem convertAll_ok (hb : b.WellFormed) (hmoves : NoMoves b) (hk : Kept c b e.body)
    (hr : ReadersKept c b e.body) {is : List InsnId}
    (his : ∀ i ∈ is, i ∈ b.instructions ∧ e.body.instruction i = b.instruction i)
    (hnodup : is.Nodup) (h : attemptAll (c.convert k) e is = (e', none)) :
    Emits e e' ((is.map b.instruction).flatMap (c.translate b)) ∧ Kept c b e'.body ∧
      ReadersKept c b e'.body ∧
      ∀ j ∈ e.body.instructions, j ∉ is → e'.body.instruction j = e.body.instruction j := by
  induction is generalizing e with
  | nil =>
    obtain rfl : e = e' := congrArg Prod.fst h
    exact ⟨Emits.refl e, hk, hr, fun _ _ _ => rfl⟩
  | cons i is ih =>
    obtain ⟨hfirst, hrest⟩ := attemptAll_cons h
    obtain ⟨hi, hinsn⟩ := his i List.mem_cons_self
    obtain ⟨hnotin, hnodup'⟩ := List.nodup_cons.1 hnodup
    have hp := convert_ok hb hk hr hi (hmoves i hi).1 (hmoves i hi).2 hinsn hfirst
    have his' : ∀ j ∈ is, j ∈ b.instructions ∧ (c.convert k e i).1.body.instruction j =
        b.instruction j := by
      intro j hj
      obtain ⟨hjb, hjinsn⟩ := his j (List.mem_cons_of_mem i hj)
      have hji : j ≠ i := fun h => hnotin (h ▸ hj)
      exact ⟨hjb, (hp.others j (hk.mem j hjb) hji).trans hjinsn⟩
    obtain ⟨hemits, hk', hr', hothers⟩ := ih hp.kept hp.readers his' hnodup' hrest
    refine ⟨hp.emits.trans hemits, hk', hr', fun j hj hjis => ?_⟩
    obtain ⟨hji, hjis⟩ := not_or.1 (mt List.mem_cons.2 hjis)
    exact (hothers j (hp.emits.keeps.mem j hj) hjis).trans (hp.others j hj hji)

/-- The commands of a block, apart from its phis. -/
def translateBlock (c : StackCoding) (b : Body) (k : BlockId) : List Command :=
  (b.instructionsOf k).flatMap (c.translate b)

/-- A block holds given commands. -/
def HasCode (b : Body) (k : BlockId) (commands : List Command) : Prop :=
  (∀ i ∈ (b.block k).instructions, i ∈ b.instructions) ∧
    b.commands (b.block k).instructions = commands

theorem HasCode.of_keeps (h : HasCode b k xs) (hkeeps : Keeps b b')
    (hinstructions : (b'.block k).instructions = (b.block k).instructions) :
    HasCode b' k xs := by
  refine ⟨fun i hi => ?_, ?_⟩
  · rw [hinstructions] at hi
    exact hkeeps.mem i (h.1 i hi)
  · rw [hinstructions, hkeeps.commands h.1, h.2]

theorem keeps_setInstructions (is : List InsnId) : Keeps b (b.setInstructions k is) :=
  keeps_of_instruction (fun _ hi => hi) fun _ _ => rfl

theorem Kept.setInstructions (h : Kept c b b') (hk : k ∈ b'.blocks) (is : List InsnId) :
    Kept c b (b'.setInstructions k is) :=
  h.change (keeps_setInstructions is) (fun _ hv => hv) (fun _ => Table.mem_modify)
      (fun _ _ => Or.inl rfl) fun l =>
    ⟨_, (b'.block l).throwing, block_setInstructions l hk is⟩

/-- The blocks that are still to be converted are as they were; the others hold what their
instructions are translated to. -/
structure Converting (c : StackCoding) (b : Body) (pending : List BlockId) (b' : Body) : Prop where
  kept : Kept c b b'
  readers : ReadersKept c b b'
  instructions : ∀ k ∈ pending, (b'.block k).instructions = (b.block k).instructions
  instruction : ∀ k ∈ pending, ∀ i ∈ (b.block k).instructions, b'.instruction i = b.instruction i
  done : ∀ k ∈ b.blocks, k ∉ pending → HasCode b' k (c.translateBlock b k)

theorem convertBlock_ok (hb : b.WellFormed) (hmoves : NoMoves b) {ks : List BlockId}
    {m m' : Lowering} (hkb : k ∈ b.blocks) (hks : k ∉ ks) (hc : Converting c b (k :: ks) m.body)
    (h : c.convertBlock m k = (m', none)) : Converting c b ks m'.body := by
  have hconverts := c.convertsBlock m k
  rw [h] at hconverts
  obtain _ | @⟨e, he⟩ := hconverts
  have hkm : k ∈ m.body.blocks := (hc.kept.mem_blocks k).2 hkb
  rw [hc.instructions k List.mem_cons_self] at he
  obtain ⟨hemits, hkept, hreaders, hothers⟩ :=
    convertAll_ok hb hmoves (hc.kept.setInstructions hkm []) (hc.readers.change fun _ _ => Iff.rfl)
      (fun i hi => ⟨((hb.mem_instructions k i).1 hi).1, hc.instruction k List.mem_cons_self i hi⟩)
      (hb.instructions_nodup k) he
  have hke : k ∈ e.body.blocks := (hkept.mem_blocks k).2 hkb
  have hkeeps : Keeps m.body (e.body.setInstructions k e.emitted) :=
    ((keeps_setInstructions []).trans hemits.keeps).trans (keeps_setInstructions e.emitted)
  -- the lists of other blocks are not touched
  have hunchanged : ∀ l, l ≠ k → ((e.body.setInstructions k e.emitted).block l).instructions =
      (m.body.block l).instructions := by
    intro l hl
    rw [block_setInstructions _ hke]
    simp only [if_neg hl]
    rw [hemits.instructions l, block_setInstructions _ hkm]
    simp only [if_neg hl]
  refine ⟨hkept.setInstructions hke _, hreaders.change fun _ _ => Iff.rfl, fun l hl => ?_,
    fun l hl i hi => ?_, fun l hlb hl => ?_⟩
  · have hlk : l ≠ k := fun h => hks (h ▸ hl)
    exact (hunchanged l hlk).trans (hc.instructions l (List.mem_cons_of_mem k hl))
  · obtain ⟨hib, hil⟩ := (hb.mem_instructions l i).1 hi
    -- an instruction is in one block only, so those of other blocks are as they were
    have hik : i ∉ (b.block k).instructions := by
      intro hik
      exact hks ((((hb.mem_instructions k i).1 hik).2.symm.trans hil) ▸ hl)
    exact (hothers i (hc.kept.mem i hib) hik).trans
      (hc.instruction l (List.mem_cons_of_mem k hl) i hi)
  · by_cases hlk : l = k
    · subst hlk
      obtain ⟨is, his, hmem, hcommands⟩ := hemits.emitted
      have hcode : ((e.body.setInstructions l e.emitted).block l).instructions = is := by
        rw [block_setInstructions _ hke, his]
        simp
      exact ⟨fun i hi => hmem i (hcode ▸ hi), by rw [hcode]; exact hcommands⟩
    · exact (hc.done l hlb fun h => (List.mem_cons.1 h).elim hlk hl).of_keeps hkeeps
        (hunchanged l hlk)

/-- **Every block becomes the commands of its instructions, one after the other.** -/
theorem insertLoadsAndStores_ok (hb : b.WellFormed) (hmoves : NoMoves b) {m m' : Lowering}
    (hm : m.body = b) (h : c.insertLoadsAndStores m = (m', none)) :
    Kept c b m'.body ∧ ∀ k ∈ b.blocks, HasCode m'.body k (c.translateBlock b k) := by
  subst hm
  obtain ⟨l, hl, rfl⟩ := insertLoadsAndStores_run h
  have hdone := attemptAll_ok
    (motive := fun ks l => ks.Nodup ∧ (∀ k ∈ ks, k ∈ m.body.blocks) ∧ Converting c m.body ks l.body)
    (fun k ks l l' hstep ⟨hnd, hmem, hc⟩ => by
      obtain ⟨hks, hnd'⟩ := List.nodup_cons.1 hnd
      exact ⟨hnd', fun k' hk' => hmem k' (List.mem_cons_of_mem k hk'),
        convertBlock_ok hb hmoves (hmem k List.mem_cons_self) hks hc hstep⟩) hl
    ⟨Table.nodup_indices _, fun k hk => Table.mem_indices.1 hk, Kept.refl c _, ReadersKept.refl c _,
      fun _ _ => rfl, fun _ _ _ _ => rfl,
      fun k hk hnot => absurd (Table.mem_indices.2 hk) hnot⟩
  exact ⟨hdone.2.2.kept, fun k hk => hdone.2.2.done k hk List.not_mem_nil⟩

end StackCoding

end JvmLowering
