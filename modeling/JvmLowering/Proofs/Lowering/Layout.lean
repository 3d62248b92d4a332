import JvmLowering.Proofs.Lowering.MoveRuns

/-!
# The instructions of stack code

Each instruction of a body becomes a stretch of instructions: pushes of its inputs, the instruction
itself, which now reads and leaves stack entries, and what takes its output off the stack. The
stretches of a block follow one another in the order of its instructions, and no later change
touches them.

* `StackCoding.Becomes`, `StackCoding.Laid`: the instructions that an instruction becomes, and those
  of a block;
* `StackCoding.Written`: what each instruction of a block is there for;
* `StackCoding.room`: how high the stack gets for an instruction;
* `StackCoding.insertLoadsAndStores_laid`: all blocks of stack code without moves;
* `Body.toStackCode_arranged`: the same with the moves that replace phis.
-/

namespace JvmLowering

/-! ### Later changes -/

namespace Body

variable {b b' b'' : Body} {i : InsnId} {is js : List InsnId} {stored : ValueId → Prop}

/-- All that was there is there, and only some instructions have been touched. -/
structure Revises (touched : List InsnId) (b b' : Body) : Prop extends Retains b b' where
  instruction : ∀ j ∈ b.instructions, j ∉ touched → b'.instruction j = b.instruction j
  slot? : ∀ v ∈ b.values, (b'.value v).slot? = (b.value v).slot?

theorem Revises.refl (b : Body) : Revises [] b b := ⟨.refl b, fun _ _ _ => rfl, fun _ _ => rfl⟩

theorem Revises.trans (h : Revises is b b') (h' : Revises js b' b'') :
    Revises (is ++ js) b b'' := by
  refine ⟨h.toRetains.trans h'.toRetains, fun j hj hnot => ?_, fun v hv => ?_⟩
  · obtain ⟨his, hjs⟩ := not_or.1 (mt List.mem_append.2 hnot)
    exact (h'.instruction j (h.mem_instructions j hj) hjs).trans (h.instruction j hj his)
  · exact (h'.slot? v (h.mem_values v hv)).trans (h.slot? v hv)

theorem Revises.mono (h : Revises is b b') (hsub : ∀ j ∈ is, j ∈ js) : Revises js b b' :=
  ⟨h.toRetains, fun j hj hnot => h.instruction j hj (mt (hsub j) hnot), h.slot?⟩

theorem Changes.revises (h : Changes i stored b b') : Revises [i] b b' :=
  ⟨h.retains, fun j hj hnot => h.instruction hj (by simpa using hnot), fun v hv => h.slot? hv⟩

theorem Grows.revises (h : Grows b b') : Revises [] b b' :=
  ⟨h.toRetains, fun j hj _ => h.instruction j hj, h.slot?⟩

theorem revises_pushInstruction {insn : Instruction}
    (houtput : ∀ v, insn.output = some v → (b.value v).isStack = true ∨ insn.operation = .store) :
    Revises [] b (b.pushInstruction insn).2 :=
  ⟨retains_pushInstruction houtput, fun _ hj _ => instruction_pushInstruction_of_mem insn hj,
    fun v _ => slot?_pushInstruction b v insn⟩

end Body

namespace StackCoding

open Body Emitter

variable {c : StackCoding} {b b' f f' : Body} {e e' : Emitter} {i j : InsnId} {v entry : ValueId}
  {k : BlockId} {h n : Nat} {line : Option UInt32} {vs es : List ValueId}
  {is js code touched : List InsnId}

/-! ### Pushed inputs -/

/-- Instructions that push values one after the other. -/
inductive Pushes (c : StackCoding) (b f : Body) (k : BlockId) (line : Option UInt32) :
    Nat → List ValueId → List ValueId → List InsnId → Prop
  | nil (h : Nat) : Pushes c b f k line h [] [] []
  | cons {h : Nat} {v entry : ValueId} {j : InsnId} {vs es : List ValueId} {js : List InsnId}
      (first : Pushed c b f k line h v entry j)
      (rest : Pushes c b f k line (h + width (b.value v).type) vs es js) :
      Pushes c b f k line h (v :: vs) (entry :: es) (j :: js)

theorem Pushes.mem (hp : Pushes c b f k line h vs es js) :
    ∀ j ∈ js, j ∈ f.instructions ∧ j ∉ b.instructions := by
  induction hp with
  | nil => exact fun _ hj => absurd hj List.not_mem_nil
  | cons first _ ih => exact List.forall_mem_cons.2 ⟨⟨first.mem, first.new⟩, ih⟩

theorem Pushes.revised (hp : Pushes c b f k line h vs es js) (hr : f.Revises touched f')
    (hnot : ∀ j ∈ js, j ∉ touched) :
    Pushes c b f' k line h vs es js := by
  induction hp with
  | nil h => exact .nil h
  | cons first _ ih =>
    obtain ⟨hj, hjs⟩ := List.forall_mem_cons.1 hnot
    exact .cons (first.kept hr.toRetains hr.slot? (hr.instruction _ first.mem hj)) (ih hjs)

/-- What is known when an input has been pushed and the instruction reads its entry. -/
structure InputLoaded (c : StackCoding) (b : Body) (k : BlockId) (line : Option UInt32) (i : InsnId)
    (n : Nat) (e e' : Emitter) (v entry : ValueId) (j : InsnId) : Prop where
  revises : e.body.Revises [i] e'.body
  pushed : Pushed c b e'.body k line e.stack.extent v entry j
  instruction : e'.body.instruction i =
    { e.body.instruction i with inputs := (e.body.instruction i).inputs.set n entry }
  emitted : e'.emitted = e.emitted ++ [j]
  pop : e'.stack.pop = e.stack
  extent : e'.stack.extent = e.stack.extent + width (b.value v).type
  maxStack : e'.maxStack = max e.maxStack (e.stack.extent + width (b.value v).type)

theorem loadInput_loaded (hb : b.WellFormed) (hk : Kept c b e.body) (hr : b.Retains e.body)
    (hi : i ∈ b.instructions) (hkb : k ∈ b.blocks) (hv : v ∈ b.values)
    (hstep : c.loadInput k i line e (v, n) = (e', none)) :
    ∃ entry j, InputLoaded c b k line i n e e' v entry j := by
  have hv' := hk.mem_values v hv
  have hi' := hk.mem i hi
  have hpushed := pushOperand_pushed c k line hv' (hk.isStack hb hv)
  obtain ⟨hwrites, hentry⟩ :=
    pushOperand_writes c e.body.instructions.next (fun _ => False) line hv'
      ((hk.mem_blocks k).2 hkb)
  have hgrows := (Adds.of_writes hwrites fun _ hw => hw.elim).grows
  have hloads := c.loads k i line e v n
  rw [hstep] at hloads
  obtain _ | _ := hloads
  generalize c.pushOperand k line e v = r at hpushed hgrows hentry
  obtain ⟨entry, p⟩ := r
  simp only at hpushed hgrows hentry ⊢
  have hip := hgrows.mem_instructions i hi'
  have hwidth : width (e.body.value v).type = width (b.value v).type := by rw [hr.type v hv]
  have hchange : Changes i (fun _ => False) p.body (p.body.replaceInput i n entry) :=
    .single (.input hip hentry)
  have hrevises := Changes.revises hchange
  have hne : e.body.instructions.next ∉ [i] := by
    rw [List.mem_singleton]
    rintro rfl
    exact Table.next_notMem _ hi'
  refine ⟨entry, e.body.instructions.next, hgrows.revises.trans hrevises, ?_, ?_, hpushed.emitted,
    hpushed.pop, hwidth ▸ hpushed.extent, hwidth ▸ hpushed.maxStack⟩
  · have hrebased := hpushed.pushed.rebase hr hv (hk.constant? hb hv)
    exact hrebased.kept hrevises.toRetains hrevises.slot? (hrevises.instruction _ hrebased.mem hne)
  · rw [instruction_replaceInput _ _ _ hip, if_pos rfl, hgrows.instruction i hi']

/-- One entry is dropped for each item, in whatever order. -/
theorem popEntries_cons {α : Type} (e : Emitter) (x : α) (items : List α) :
    e.popEntries (x :: items) = (e.popEntries items).popEntry := by
  unfold Emitter.popEntries
  induction items generalizing e x with
  | nil => rfl
  | cons y items ih =>
    rw [List.foldl_cons, ih]
    rfl

/-- What is known when inputs have been pushed and the instruction reads their entries. -/
structure InputsLoaded (c : StackCoding) (b : Body) (k : BlockId) (line : Option UInt32)
    (i : InsnId) (e e' : Emitter) (loaded vs : List ValueId) : Prop where
  kept : Kept c b e'.body
  readers : ReadersKept c b e'.body
  revises : e.body.Revises [i] e'.body
  pushes : ∃ es js, Pushes c b e'.body k line e.stack.extent vs es js ∧
    e'.body.instruction i = { e.body.instruction i with inputs := loaded ++ es } ∧
      e'.emitted = e.emitted ++ js
  stack : (e'.popEntries vs).stack = e.stack
  maxStack : e'.maxStack = max e.maxStack (e.stack.extent + b.widthOf vs)

theorem loadInputs_loaded (hb : b.WellFormed) (hk : Kept c b e.body)
    (hread : ReadersKept c b e.body) (hr : b.Retains e.body) (hi : i ∈ b.instructions)
    (hload : (b.instruction i).operation ≠ .load) (hstore : (b.instruction i).operation ≠ .store)
    (hkb : k ∈ b.blocks) (loaded : List ValueId) {vs : List ValueId}
    (hvs : ∀ v ∈ vs, v ∈ b.values ∧ (b.value v).users.Reading)
    (hinputs : (e.body.instruction i).inputs = loaded ++ vs) (hextent : e.stack.extent ≤ e.maxStack)
    (hrun : attemptAll (c.loadInput k i line) e (vs.zipIdx loaded.length) = (e', none)) :
    InputsLoaded c b k line i e e' loaded vs := by
  -- the induction is on the inputs to come; those before them are entries already
  induction vs generalizing e loaded with
  | nil =>
    obtain rfl : e = e' := congrArg Prod.fst hrun
    refine ⟨hk, hread, (Revises.refl _).mono (by simp),
      ⟨[], [], .nil _, ?_, (List.append_nil _).symm⟩, rfl, ?_⟩
    · rw [← hinputs]
    · exact (Nat.max_eq_left hextent).symm
  | cons v vs ih =>
    rw [List.zipIdx_cons] at hrun
    obtain ⟨hfirst, hrest⟩ := attemptAll_cons hrun
    obtain ⟨⟨hv, hreading⟩, hvs⟩ := List.forall_mem_cons.1 hvs
    have hn : (e.body.instruction i).inputs[loaded.length]? = some v := by simp [hinputs]
    obtain ⟨hprogress, -⟩ := loadInput_ok hb hk hread hi hload hstore hv hreading hn hfirst
    obtain ⟨entry, j, hloaded⟩ := loadInput_loaded hb hk hr hi hkb hv hfirst
    generalize (c.loadInput k i line e (v, loaded.length)).1 = e₁ at hprogress hloaded hrest
    have hinputs₁ : (e₁.body.instruction i).inputs = (loaded ++ [entry]) ++ vs := by
      simp [hloaded.instruction, hinputs]
    have hextent₁ : e₁.stack.extent ≤ e₁.maxStack := by
      rw [hloaded.extent, hloaded.maxStack]
      exact Nat.le_max_right ..
    obtain ⟨hk₂, hread₂, hrevises, ⟨es, js, hpushes, hinsn, hemitted⟩, hstack, hmax⟩ :=
      ih hprogress.kept hprogress.readers (hr.trans hloaded.revises.toRetains)
        (loaded ++ [entry]) hvs hinputs₁ hextent₁ (by simpa using hrest)
    -- later loads change the instruction `i` only, so they leave this one alone
    have hj : j ∉ [i] := by
      rw [List.mem_singleton]
      rintro rfl
      exact hloaded.pushed.new hi
    refine ⟨hk₂, hread₂, ?_, ⟨entry :: es, j :: js, .cons ?_ ?_, ?_, ?_⟩, ?_, ?_⟩
    · exact (hloaded.revises.trans hrevises).mono (by simp)
    · exact hloaded.pushed.kept hrevises.toRetains hrevises.slot?
        (hrevises.instruction j hloaded.pushed.mem hj)
    · rw [← hloaded.extent]
      exact hpushes
    · simp [hinsn, hloaded.instruction]
    · rw [hemitted, hloaded.emitted, List.append_assoc]
      rfl
    · rw [popEntries_cons]
      show (e'.popEntries vs).stack.pop = e.stack
      rw [hstack, hloaded.pop]
    · rw [hmax, hloaded.maxStack, hloaded.extent, widthOf_cons]
      omega

/-! ### Outputs -/

/-- The instruction that takes an output off the stack: into its local variable if anything reads
it. -/
def taking (b : Body) (k : BlockId) (line : Option UInt32) (v entry : ValueId) : Instruction :=
  if (b.value v).users.isEmpty then ⟨.pop, [entry], none, k, line⟩
    else ⟨.store, [entry], some v, k, line⟩

/-- What is known when an instruction leaves its output in a stack entry. -/
structure OutputPlaced (e e' : Emitter) (i : InsnId) (v entry : ValueId) : Prop where
  revises : e.body.Revises [i] e'.body
  stands : StandsFor e'.body e.stack.extent (e.body.value v).type entry
  instruction : e'.body.instruction i = { e.body.instruction i with output := some entry }
  users : (e'.body.value v).users = (e.body.value v).users
  emitted : e'.emitted = e.emitted ++ [i]
  pop : e'.stack.pop = e.stack
  maxStack : e'.maxStack = max e.maxStack (e.stack.extent + width (e.body.value v).type)

theorem placeOutput_placed (c : StackCoding) (hv : v ∈ e.body.values)
    (hstack : (e.body.value v).isStack = false) (hi : i ∈ e.body.instructions) :
    OutputPlaced e (placeOutput e i v (c.stackType e.body v)) i v e.body.values.next := by
  have hwidth := c.width_stackType hstack
  obtain ⟨hwrites, hmem⟩ := placeOutput_writes (fun _ => False) v (c.stackType e.body v) hi
  obtain ⟨x, hx, htype, hslot⟩ : ∃ x, (placeOutput e i v (c.stackType e.body v)).body =
      (e.body.pushValue x).2.replaceOutput i e.body.values.next ∧ x.type = (e.body.value v).type ∧
        x.slot? = some ⟨e.stack.extent, c.stackType e.body v⟩ := ⟨_, rfl, rfl, rfl⟩
  have hnew : (e.body.pushValue x).2.value e.body.values.next = x :=
    (value_pushValue ..).trans (if_pos rfl)
  have hi' : i ∈ (e.body.pushValue x).2.instructions := hi
  refine ⟨Changes.revises hwrites.changes, ⟨hmem, ?_, c.stackType e.body v, ?_, hwidth⟩, ?_, ?_,
    rfl, rfl, ?_⟩
  · rw [hx, type_replaceOutput, hnew, htype]
  · have hsame :
      (((e.body.pushValue x).2.replaceOutput i e.body.values.next).value e.body.values.next).slot? =
      ((e.body.pushValue x).2.value e.body.values.next).slot? :=
      value_modifyValue_congr _ _ _ Value.slot? fun y => y.slot?_defineBy i
    rw [hx, hsame, hnew, hslot]
  · rw [hx, instruction_replaceOutput _ _ hi', if_pos rfl]
    rfl
  · rw [hx, users_replaceOutput, value_pushValue, if_neg]
    rintro rfl
    exact Table.next_notMem _ hv
  · exact congrArg (fun n => max e.maxStack (e.stack.extent + n)) hwidth

/-- What is known when the output of an instruction has been taken off the stack. -/
structure OutputStored (b : Body) (k : BlockId) (line : Option UInt32) (i : InsnId) (e e' : Emitter)
    (v entry : ValueId) (j : InsnId) : Prop where
  revises : e.body.Revises [i] e'.body
  stands : StandsFor e'.body e.stack.extent (e.body.value v).type entry
  instruction : e'.body.instruction i = { e.body.instruction i with output := some entry }
  new : j ∉ e.body.instructions
  mem : j ∈ e'.body.instructions
  taken : e'.body.instruction j = taking b k line v entry
  emitted : e'.emitted = e.emitted ++ [i, j]
  stack : e'.stack = e.stack
  maxStack : e'.maxStack = max e.maxStack (e.stack.extent + width (e.body.value v).type)

theorem storeOutput_stored (c : StackCoding) (k : BlockId) (line : Option UInt32)
    (hv : v ∈ e.body.values) (hstack : (e.body.value v).isStack = false)
    (hi : i ∈ e.body.instructions)
    (hempty : (e.body.value v).users.isEmpty = (b.value v).users.isEmpty) :
    ∃ entry j, OutputStored b k line i e (c.storeOutput k i line e v) v entry j := by
  have hplaced := placeOutput_placed c hv hstack hi
  have hunfold := storeOutput_eq c k i line e v
  generalize placeOutput e i v (c.stackType e.body v) = placed at hplaced hunfold
  -- either way one instruction takes the entry away
  obtain ⟨event, heq⟩ : ∃ event, c.storeOutput k i line e v =
      ((placed.emit (taking b k line v e.body.values.next)).report event).popEntry := by
    rw [hunfold, hplaced.users, hempty]
    unfold taking
    split
    · exact ⟨_, rfl⟩
    · exact ⟨_, rfl⟩
  rw [heq]
  -- to add it changes nothing that was there
  have hpushed :
      placed.body.Revises []
      (placed.body.pushInstruction (taking b k line v e.body.values.next)).2 := by
    refine revises_pushInstruction fun w hw => Or.inr ?_
    unfold taking at hw ⊢
    split at hw
    · simp at hw
    · rename_i hread
      rw [if_neg hread]
  have hip := hplaced.revises.mem_instructions i hi
  refine ⟨e.body.values.next, placed.body.instructions.next,
    (hplaced.revises.trans hpushed).mono (by simp), ?_, ?_, ?_, ?_, ?_, ?_, ?_, ?_⟩
  · exact hplaced.stands.kept hpushed.toRetains (hpushed.slot? _ hplaced.stands.mem)
  · exact (hpushed.instruction i hip List.not_mem_nil).trans hplaced.instruction
  · exact fun hj => Table.next_notMem _ (hplaced.revises.mem_instructions _ hj)
  · exact (mem_instructions_pushInstruction ..).2 (Or.inr rfl)
  · exact (instruction_pushInstruction ..).trans (if_pos rfl)
  · show placed.emitted ++ [placed.body.instructions.next] = _
    rw [hplaced.emitted, List.append_assoc]
    rfl
  · exact hplaced.pop
  · exact hplaced.maxStack

/-! ### What an instruction becomes -/

/-- The instructions that an instruction becomes. -/
inductive Becomes (c : StackCoding) (b f : Body) (k : BlockId) (i : InsnId) : List InsnId → Prop
  | argument (operation : (b.instruction i).operation.isArgument = true) (mem : i ∈ f.instructions)
      (instruction : f.instruction i = b.instruction i) : Becomes c b f k i [i]
  | dropped (operation : (b.instruction i).operation.isArgument = false)
      (dropped : c.isDropped b (b.instruction i) = true) :
      Becomes c b f k i []
  | effect {es : List ValueId} {js : List InsnId}
      (operation : (b.instruction i).operation.isArgument = false)
      (undropped : c.isDropped b (b.instruction i) = false)
      (output : (b.instruction i).output = none)
      (pushes : Pushes c b f k (b.instruction i).line 0 (b.instruction i).inputs es js)
      (mem : i ∈ f.instructions)
      (instruction : f.instruction i = { b.instruction i with inputs := es }) :
      Becomes c b f k i (js ++ [i])
  | result {v entry : ValueId} {es : List ValueId} {js : List InsnId} {j : InsnId}
      (operation : (b.instruction i).operation.isArgument = false)
      (undropped : c.isDropped b (b.instruction i) = false)
      (output : (b.instruction i).output = some v)
      (pushes : Pushes c b f k (b.instruction i).line 0 (b.instruction i).inputs es js)
      (mem : i ∈ f.instructions)
      (instruction : f.instruction i = { b.instruction i with inputs := es, output := some entry })
      (stands : StandsFor f 0 (b.value v).type entry) (new : j ∉ b.instructions)
      (mem' : j ∈ f.instructions)
      (taken : f.instruction j = taking b k (b.instruction i).line v entry) :
      Becomes c b f k i (js ++ [i, j])

theorem Becomes.mem (hi : Becomes c b f k i is) :
    ∀ j ∈ is, j ∈ f.instructions ∧ (j = i ∨ j ∉ b.instructions) := by
  cases hi with
  | argument _ mem _ => simpa using mem
  | dropped => exact fun _ hj => absurd hj List.not_mem_nil
  | effect _ _ _ pushes mem _ =>
    intro j hj
    rcases List.mem_append.1 hj with hj | hj
    · exact ⟨(pushes.mem j hj).1, Or.inr (pushes.mem j hj).2⟩
    · rw [List.mem_singleton.1 hj]
      exact ⟨mem, Or.inl rfl⟩
  | result _ _ _ pushes mem _ _ new mem' _ =>
    intro j hj
    rcases List.mem_append.1 hj with hj | hj
    · exact ⟨(pushes.mem j hj).1, Or.inr (pushes.mem j hj).2⟩
    · rcases List.mem_pair.1 hj with rfl | rfl
      · exact ⟨mem, Or.inl rfl⟩
      · exact ⟨mem', Or.inr new⟩

theorem Becomes.revised (hi : Becomes c b f k i is) (hr : f.Revises touched f')
    (hnot : ∀ j ∈ is, j ∉ touched) :
    Becomes c b f' k i is := by
  have hmem : ∀ j ∈ is, j ∈ f'.instructions := fun j hj => hr.mem_instructions j (hi.mem j hj).1
  have hsame : ∀ j ∈ is, f'.instruction j = f.instruction j :=
    fun j hj => hr.instruction j (hi.mem j hj).1 (hnot j hj)
  cases hi with
  | argument operation mem instruction =>
    exact .argument operation (hmem i (by simp)) ((hsame i (by simp)).trans instruction)
  | dropped operation dropped => exact .dropped operation dropped
  | effect operation undropped output pushes mem instruction =>
    exact .effect operation undropped output (pushes.revised hr fun j hj => hnot j (by simp [hj]))
      (hmem i (by simp)) ((hsame i (by simp)).trans instruction)
  | result operation undropped output pushes mem instruction stands new mem' taken =>
    exact .result operation undropped output (pushes.revised hr fun j hj => hnot j (by simp [hj]))
      (hmem i (by simp)) ((hsame i (by simp)).trans instruction)
      (stands.kept hr.toRetains (hr.slot? _ stands.mem)) new (hmem _ (by simp))
      ((hsame _ (by simp)).trans taken)

/-- How high the stack gets for an instruction. -/
def room (c : StackCoding) (b : Body) (insn : Instruction) : Nat :=
  if insn.operation.isArgument || c.isDropped b insn then 0
    else max (b.widthOf insn.inputs) (b.widthOf insn.output.toList)

/-- What is known when an instruction has been converted. -/
structure InstructionLaid (c : StackCoding) (b : Body) (k : BlockId) (i : InsnId) (e e' : Emitter) :
    Prop where
  kept : Kept c b e'.body
  readers : ReadersKept c b e'.body
  revises : e.body.Revises [i] e'.body
  lists : ∀ l, (e'.body.block l).instructions = (e.body.block l).instructions
  becomes : ∃ is, Becomes c b e'.body k i is ∧ e'.emitted = e.emitted ++ is
  stack : e'.stack = e.stack
  maxStack : e'.maxStack = max e.maxStack (c.room b (b.instruction i))

/-- What is known when all inputs of an instruction have been pushed, on a stack that was empty. -/
structure AllLoaded (c : StackCoding) (b : Body) (k : BlockId) (i : InsnId) (e loaded : Emitter)
    (es : List ValueId) (js : List InsnId) : Prop where
  kept : Kept c b loaded.body
  readers : ReadersKept c b loaded.body
  retains : b.Retains loaded.body
  revises : e.body.Revises [i] loaded.body
  pushes : Pushes c b loaded.body k (b.instruction i).line 0 (b.instruction i).inputs es js
  instruction : loaded.body.instruction i = { b.instruction i with inputs := es }
  emitted : loaded.emitted = e.emitted ++ js
  popped : loaded.popEntries (b.instruction i).inputs = { loaded with stack := e.stack }
  maxStack : loaded.maxStack = max e.maxStack (b.widthOf (b.instruction i).inputs)

theorem loadAll_loaded {loaded : Emitter} (hb : b.WellFormed) (hmoves : NoMoves b)
    (hk : Kept c b e.body) (hread : ReadersKept c b e.body) (hr : b.Retains e.body)
    (hi : i ∈ b.instructions) (hkb : k ∈ b.blocks) (hinsn : e.body.instruction i = b.instruction i)
    (hextent : e.stack.extent = 0)
    (hrun : attemptAll (c.loadInput k i (b.instruction i).line) e (b.instruction i).inputs.zipIdx =
      (loaded, none)) : ∃ es js, AllLoaded c b k i e loaded es js := by
  have hloads := loadInputs_loaded hb hk hread hr hi (hmoves i hi).1 (hmoves i hi).2 hkb []
    (fun v hv => ⟨hb.inputs_mem i v hv, Or.inl ⟨i, (hb.mem_readers v i).2 hv⟩⟩)
    (by rw [hinsn, List.nil_append]) (by omega) hrun
  obtain ⟨es, js, hpushes, hinsn', hemitted⟩ := hloads.pushes
  rw [hextent] at hpushes
  rw [hinsn, List.nil_append] at hinsn'
  have hstack := hloads.stack
  have hmax := hloads.maxStack
  rw [hextent, Nat.zero_add] at hmax
  obtain ⟨stack, hpopped⟩ := popEntries_eq loaded (b.instruction i).inputs
  rw [hpopped] at hstack
  obtain rfl : stack = e.stack := hstack
  exact ⟨es, js, hloads.kept, hloads.readers, hr.trans hloads.revises.toRetains, hloads.revises,
    hpushes, hinsn', hemitted, hpopped, hmax⟩

theorem room_eq (harg : (b.instruction i).operation.isArgument = false)
    (hdropped : c.isDropped b (b.instruction i) = false) : c.room b (b.instruction i) =
      max (b.widthOf (b.instruction i).inputs) (b.widthOf (b.instruction i).output.toList) := by
  simp [room, harg, hdropped]

/-- An instruction without output acts on its inputs. -/
theorem AllLoaded.effect {loaded : Emitter} {es : List ValueId} {js : List InsnId}
    {xs : List Command} (ha : AllLoaded c b k i e loaded es js) (hi : i ∈ e.body.instructions)
    (hprogress : Progress c b i e ((loaded.popEntries (b.instruction i).inputs).place i) xs)
    (harg : (b.instruction i).operation.isArgument = false)
    (hdropped : c.isDropped b (b.instruction i) = false) (hout : (b.instruction i).output = none) :
    InstructionLaid c b k i e ((loaded.popEntries (b.instruction i).inputs).place i) := by
  rw [ha.popped] at hprogress ⊢
  refine ⟨hprogress.kept, hprogress.readers, ha.revises, hprogress.emits.instructions,
    ⟨js ++ [i], ?becomes, ?emitted⟩, rfl, ?maxStack⟩
  case becomes =>
    exact .effect harg hdropped hout ha.pushes (ha.revises.mem_instructions i hi) ha.instruction
  case emitted =>
    show loaded.emitted ++ [i] = _
    rw [ha.emitted, List.append_assoc]
  case maxStack =>
    rw [room_eq harg hdropped, hout]
    exact ha.maxStack.trans (by simp)

/-- The output of an instruction is taken off the stack. -/
theorem AllLoaded.result {loaded : Emitter} {es : List ValueId} {js : List InsnId}
    {xs : List Command} (hb : b.WellFormed) (ha : AllLoaded c b k i e loaded es js)
    (hi : i ∈ b.instructions) (hi' : i ∈ e.body.instructions) (hextent : e.stack.extent = 0)
    (hprogress : Progress c b i e
      (c.storeOutput k i (b.instruction i).line (loaded.popEntries (b.instruction i).inputs) v) xs)
    (harg : (b.instruction i).operation.isArgument = false)
    (hdropped : c.isDropped b (b.instruction i) = false)
    (hout : (b.instruction i).output = some v) :
    InstructionLaid c b k i e
      (c.storeOutput k i (b.instruction i).line
        (loaded.popEntries (b.instruction i).inputs) v) := by
  rw [ha.popped] at hprogress ⊢
  obtain ⟨hv, -⟩ := hb.origin_of_output i v hout
  have hconstant : c.constant? b v = none := constant?_of_output hb hout hdropped
  -- the output is read now exactly if it was read before: it is stored, or else popped
  have hempty : (loaded.body.value v).users.isEmpty = (b.value v).users.isEmpty := by
    rw [Bool.eq_iff_iff, Users.isEmpty_iff, Users.isEmpty_iff]
    exact not_congr ⟨ha.readers.unread v hv, ha.readers.read v hv hconstant⟩
  have htype : (loaded.body.value v).type = (b.value v).type := ha.retains.type v hv
  obtain ⟨entry, j, hstored⟩ := storeOutput_stored (e := { loaded with stack := e.stack }) c k
    (b.instruction i).line (ha.kept.mem_values v hv) (ha.kept.isStack hb hv)
    (ha.revises.mem_instructions i hi') hempty
  have hstands := hstored.stands
  have hmax := hstored.maxStack
  simp only [htype, hextent, Nat.zero_add] at hstands hmax
  -- what loads the inputs is new, so it is not the instruction itself
  have hnew : ∀ j ∈ js, j ∉ [i] := by
    intro j hj
    rw [List.mem_singleton]
    rintro rfl
    exact (ha.pushes.mem j hj).2 hi
  refine ⟨hprogress.kept, hprogress.readers, (ha.revises.trans hstored.revises).mono (by simp),
    hprogress.emits.instructions, ⟨js ++ [i, j], ?becomes, ?emitted⟩, hstored.stack, ?maxStack⟩
  case becomes =>
    refine .result harg hdropped hout (ha.pushes.revised hstored.revises hnew)
      (hstored.revises.mem_instructions i (ha.revises.mem_instructions i hi')) ?_ hstands
      (fun hj => hstored.new (ha.retains.mem_instructions j hj)) hstored.mem hstored.taken
    rw [hstored.instruction]
    simp only [ha.instruction]
  case emitted =>
    rw [hstored.emitted]
    show loaded.emitted ++ [i, j] = _
    rw [ha.emitted, List.append_assoc]
  case maxStack =>
    rw [hmax, room_eq harg hdropped, hout, ha.maxStack]
    simp [Nat.max_assoc]

theorem convert_laid (hb : b.WellFormed) (hmoves : NoMoves b) (hk : Kept c b e.body)
    (hread : ReadersKept c b e.body) (hr : b.Retains e.body) (hi : i ∈ b.instructions)
    (hkb : k ∈ b.blocks) (hinsn : e.body.instruction i = b.instruction i)
    (hextent : e.stack.extent = 0) (hstep : c.convert k e i = (e', none)) :
    InstructionLaid c b k i e e' := by
  have hprogress := convert_ok hb hk hread hi (hmoves i hi).1 (hmoves i hi).2 hinsn hstep
  have hi' := hk.mem i hi
  have hdrop : c.isDropped e.body (b.instruction i) = c.isDropped b (b.instruction i) := by
    rw [isDropped_eq hb hk, isDropped_eq hb (Kept.refl c b)]
  have hunchanged : e.body.Revises [i] e.body := (Revises.refl _).mono (by simp)
  have hconverts := c.converts k e i
  rw [hinsn, hstep] at hconverts
  cases hconverts with
  | argument harg =>
    refine ⟨hprogress.kept, hprogress.readers, hunchanged, hprogress.emits.instructions,
      ⟨[i], .argument harg hi' hinsn, rfl⟩, rfl, ?_⟩
    simp [room, harg, place]
  | dropped harg hdropped =>
    rw [hdrop] at hdropped
    refine ⟨hprogress.kept, hprogress.readers, hunchanged, hprogress.emits.instructions,
      ⟨[], .dropped harg hdropped, (List.append_nil _).symm⟩, rfl, ?_⟩
    simp [room, hdropped, report]
  | effect harg hdropped hloaded hout =>
    rw [hdrop] at hdropped
    obtain ⟨es, js, ha⟩ := loadAll_loaded hb hmoves hk hread hr hi hkb hinsn hextent hloaded
    exact ha.effect hi' hprogress harg hdropped hout
  | result harg hdropped hloaded hout free =>
    rw [hdrop] at hdropped
    obtain ⟨es, js, ha⟩ := loadAll_loaded hb hmoves hk hread hr hi hkb hinsn hextent hloaded
    exact ha.result hb hi hi' hextent hprogress harg hdropped hout

/-! ### The instructions of a block -/

/-- The instructions that those of a block become, one after the other. -/
inductive Laid (c : StackCoding) (b f : Body) (k : BlockId) : List InsnId → List InsnId → Prop
  | nil : Laid c b f k [] []
  | cons {i : InsnId} {is rest js : List InsnId} (first : Becomes c b f k i is)
      (others : Laid c b f k rest js) :
      Laid c b f k (i :: rest) (is ++ js)

theorem Laid.mem (hl : Laid c b f k is js) :
    ∀ j ∈ js, j ∈ f.instructions ∧ (j ∈ is ∨ j ∉ b.instructions) := by
  induction hl with
  | nil => exact fun _ hj => absurd hj List.not_mem_nil
  | cons first _ ih =>
    intro j hj
    rcases List.mem_append.1 hj with hj | hj
    · refine (first.mem j hj).imp_right (Or.imp_left ?_)
      rintro rfl
      exact List.mem_cons_self
    · exact (ih j hj).imp_right (Or.imp_left (List.mem_cons_of_mem _))

theorem Laid.revised (hl : Laid c b f k is js) (hr : f.Revises touched f')
    (hnot : ∀ j ∈ js, j ∉ touched) :
    Laid c b f' k is js := by
  induction hl with
  | nil => exact .nil
  | cons first _ ih =>
    obtain ⟨hfirst, hothers⟩ := List.forall_mem_append.1 hnot
    exact .cons (first.revised hr hfirst) (ih hothers)

/-- What is known when instructions of a block have been converted. -/
structure InstructionsLaid (c : StackCoding) (b : Body) (k : BlockId) (is : List InsnId)
    (e e' : Emitter) : Prop where
  revises : e.body.Revises is e'.body
  lists : ∀ l, (e'.body.block l).instructions = (e.body.block l).instructions
  laid : ∃ js, Laid c b e'.body k is js ∧ e'.emitted = e.emitted ++ js
  maxStack : ∀ h, e'.maxStack ≤ h ↔ e.maxStack ≤ h ∧ ∀ i ∈ is, c.room b (b.instruction i) ≤ h

theorem convertAll_laid (hb : b.WellFormed) (hmoves : NoMoves b) (hkb : k ∈ b.blocks)
    (hk : Kept c b e.body) (hread : ReadersKept c b e.body) (hr : b.Retains e.body)
    (hextent : e.stack.extent = 0)
    (his : ∀ i ∈ is, i ∈ b.instructions ∧ e.body.instruction i = b.instruction i)
    (hnodup : is.Nodup) (hrun : attemptAll (c.convert k) e is = (e', none)) :
    InstructionsLaid c b k is e e' := by
  induction is generalizing e with
  | nil =>
    obtain rfl : e = e' := congrArg Prod.fst hrun
    exact ⟨.refl _, fun _ => rfl, ⟨[], .nil, (List.append_nil _).symm⟩, fun h => by simp⟩
  | cons i is ih =>
    obtain ⟨hfirst, hrest⟩ := attemptAll_cons hrun
    obtain ⟨⟨hi, hinsn⟩, his⟩ := List.forall_mem_cons.1 his
    obtain ⟨hiis, hnodup⟩ := List.nodup_cons.1 hnodup
    have hlaid := convert_laid hb hmoves hk hread hr hi hkb hinsn hextent hfirst
    generalize (c.convert k e i).1 = e₁ at hlaid hrest
    -- the instructions to come have not been touched
    have his₁ : ∀ j ∈ is, j ∈ b.instructions ∧ e₁.body.instruction j = b.instruction j := by
      intro j hj
      obtain ⟨hjb, hjinsn⟩ := his j hj
      refine ⟨hjb, (hlaid.revises.instruction j (hk.mem j hjb) ?_).trans hjinsn⟩
      rw [List.mem_singleton]
      rintro rfl
      exact hiis hj
    obtain ⟨hrevises, hlists, ⟨js, hothers, hemitted⟩, hmax⟩ :=
      ih hlaid.kept hlaid.readers (hr.trans hlaid.revises.toRetains) (hlaid.stack ▸ hextent)
        his₁ hnodup hrest
    obtain ⟨is₁, hbecomes, hemitted₁⟩ := hlaid.becomes
    refine ⟨hlaid.revises.trans hrevises, fun l => (hlists l).trans (hlaid.lists l),
      ⟨is₁ ++ js, .cons (hbecomes.revised hrevises fun j hj hmem => ?_) hothers, ?_⟩, fun h => ?_⟩
    -- what the first instruction became is not converted again
    · rcases (hbecomes.mem j hj).2 with rfl | hnew
      · exact hiis hmem
      · exact hnew (his j hmem).1
    · rw [hemitted, hemitted₁, List.append_assoc]
    · rw [hmax, hlaid.maxStack, Nat.max_le, List.forall_mem_cons, and_assoc]

/-! ### Where instructions come from -/

/-- One of some instructions pushes a stack entry for a value, and the entry is of the type of the
value. -/
def Copies (c : StackCoding) (b f : Body) (k : BlockId) (code : List InsnId)
    (v entry : ValueId) : Prop :=
  (f.value entry).type = (b.value v).type ∧ ∃ j ∈ code, ∃ line,
    f.instruction j = c.pushing b k line v entry

/-- What an instruction of a block of stack code is there for. -/
inductive Written (c : StackCoding) (b f : Body) (k : BlockId) (code : List InsnId)
    (j : InsnId) : Prop
  /-- An argument is as it was. -/
  | argument (mem : j ∈ (b.block k).instructions)
      (operation : (b.instruction j).operation.isArgument = true)
      (instruction : f.instruction j = b.instruction j)
  /-- Any other instruction that is kept reads copies of what it read, and leaves a stack entry for
  its output. -/
  | kept {es : List ValueId} {left : Option ValueId} (mem : j ∈ (b.block k).instructions)
      (operation : (b.instruction j).operation.isArgument = false)
      (undropped : c.isDropped b (b.instruction j) = false)
      (instruction : f.instruction j = { b.instruction j with inputs := es, output := left })
      (inputs : List.Forall₂ (c.Copies b f k code) (b.instruction j).inputs es)
      (output : (left.map fun entry => (f.value entry).type) = (b.instruction j).output.map fun v =>
        (b.value v).type)
  /-- A value that is read somewhere is pushed. -/
  | pushed {v entry : ValueId} {line : Option UInt32} (new : j ∉ b.instructions)
      (read : (b.value v).users.isEmpty = false)
      (instruction : f.instruction j = c.pushing b k line v entry)
      (type : (f.value entry).type = (b.value v).type)
  /-- An output is taken off the stack. -/
  | taken {i : InsnId} {v entry : ValueId} (new : j ∉ b.instructions)
      (mem : i ∈ (b.block k).instructions)
      (operation : (b.instruction i).operation.isArgument = false)
      (undropped : c.isDropped b (b.instruction i) = false)
      (output : (b.instruction i).output = some v)
      (instruction : f.instruction j = taking b k (b.instruction i).line v entry)
  /-- An operand is stored into its phi. -/
  | moved {p v entry : ValueId} {line : Option UInt32} (new : j ∉ b.instructions)
      (operand : v ∈ b.operands p)
      (instruction : f.instruction j = ⟨.store, [entry], some p, k, line⟩)

theorem Pushes.copies (hp : Pushes c b f k line h vs es js) (hcode : ∀ j ∈ js, j ∈ code) :
    List.Forall₂ (c.Copies b f k code) vs es := by
  induction hp with
  | nil => exact .nil
  | cons first _ ih =>
    obtain ⟨hj, hjs⟩ := List.forall_mem_cons.1 hcode
    exact .cons ⟨first.entry.type_eq, _, hj, _, first.instruction⟩ (ih hjs)

theorem Pushes.pushed (hp : Pushes c b f k line h vs es js) :
    ∀ j ∈ js, ∃ v ∈ vs, ∃ n entry, Pushed c b f k line n v entry j := by
  induction hp with
  | nil => exact fun _ hj => absurd hj List.not_mem_nil
  | @cons n v entry j vs es js first _ ih =>
    refine List.forall_mem_cons.2 ⟨⟨v, List.mem_cons_self, n, entry, first⟩, fun j hj => ?_⟩
    obtain ⟨v, hv, hpushed⟩ := ih j hj
    exact ⟨v, List.mem_cons_of_mem _ hv, hpushed⟩

theorem Becomes.written (hbecomes : Becomes c b f k i is) (hb : b.WellFormed)
    (hi : i ∈ (b.block k).instructions) (hcode : ∀ j ∈ is, j ∈ code) :
    ∀ j ∈ is, Written c b f k code j := by
  -- all that is pushed for the instruction is read by it
  have hread : ∀ {es : List ValueId} {js : List InsnId},
      Pushes c b f k (b.instruction i).line 0 (b.instruction i).inputs es js → ∀ j ∈ js,
      Written c b f k code j := by
    intro es js pushes j hj
    obtain ⟨v, hv, n, entry, hpushed⟩ := pushes.pushed j hj
    exact .pushed hpushed.new (isEmpty_users_of_input hb hv) hpushed.instruction
      hpushed.entry.type_eq
  cases hbecomes with
  | argument operation _ instruction =>
    exact List.forall_mem_singleton.2 (.argument hi operation instruction)
  | dropped => exact fun _ hj => absurd hj List.not_mem_nil
  | effect operation undropped output pushes _ instruction =>
    refine List.forall_mem_append.2 ⟨hread pushes, List.forall_mem_singleton.2 ?_⟩
    refine .kept hi operation undropped instruction
      (pushes.copies fun j hj => hcode j (List.mem_append_left _ hj)) ?_
    rw [output]
    rfl
  | result operation undropped output pushes _ instruction stands new _ taken =>
    refine List.forall_mem_append.2
      ⟨hread pushes, List.forall_mem_cons.2 ⟨?_, List.forall_mem_singleton.2 ?_⟩⟩
    · exact .kept hi operation undropped instruction
        (pushes.copies fun j hj => hcode j (List.mem_append_left _ hj))
        (by rw [output, Option.map_some, Option.map_some, stands.type_eq])
    · exact .taken new hi operation undropped output taken

theorem Laid.written (hl : Laid c b f k is js) (hb : b.WellFormed)
    (his : ∀ i ∈ is, i ∈ (b.block k).instructions) (hcode : ∀ j ∈ js, j ∈ code) :
    ∀ j ∈ js, Written c b f k code j := by
  induction hl with
  | nil => exact fun _ hj => absurd hj List.not_mem_nil
  | cons first _ ih =>
    obtain ⟨hi, his⟩ := List.forall_mem_cons.1 his
    obtain ⟨hfirst, hothers⟩ := List.forall_mem_append.1 hcode
    exact List.forall_mem_append.2 ⟨first.written hb hi hfirst, ih his hothers⟩

/-! ### All blocks -/

/-- The blocks that are not pending any more are laid out, and the stack has got as high as they
need. -/
structure Laying (c : StackCoding) (b : Body) (pending : List BlockId) (m : Lowering) : Prop where
  converting : Converting c b pending m.body
  retains : b.Retains m.body
  laid : ∀ k ∈ b.blocks, k ∉ pending →
    Laid c b m.body k (b.block k).instructions (m.body.block k).instructions
  maxStack : ∀ h, m.maxStack ≤ h ↔
    ∀ k ∈ b.blocks, k ∉ pending → ∀ i ∈ (b.block k).instructions, c.room b (b.instruction i) ≤ h

theorem convertBlock_laid (hb : b.WellFormed) (hmoves : NoMoves b) {ks : List BlockId}
    {m m' : Lowering} (hkb : k ∈ b.blocks) (hks : k ∉ ks) (hl : Laying c b (k :: ks) m)
    (hstep : c.convertBlock m k = (m', none)) : Laying c b ks m' := by
  have hconverting := convertBlock_ok hb hmoves hkb hks hl.converting hstep
  have hconverts := c.convertsBlock m k
  rw [hstep] at hconverts
  obtain _ | @⟨e, he⟩ := hconverts
  have hc := hl.converting
  have hkm : k ∈ m.body.blocks := (hc.kept.mem_blocks k).2 hkb
  have hcleared := (grows_setInstructions hkm []).revises
  rw [hc.instructions k List.mem_cons_self] at he
  have hlaid := convertAll_laid hb hmoves hkb (hc.kept.setInstructions hkm [])
    (hc.readers.change fun _ _ => Iff.rfl) (hl.retains.trans hcleared.toRetains) rfl
    (fun i hi => ⟨((hb.mem_instructions k i).1 hi).1, hc.instruction k List.mem_cons_self i hi⟩)
    (hb.instructions_nodup k) he
  have hke : k ∈ e.body.blocks := (hlaid.revises.mem_blocks k).2 ((hcleared.mem_blocks k).2 hkm)
  have hset := (grows_setInstructions hke e.emitted).revises
  have hrevises : m.body.Revises (b.block k).instructions (e.body.setInstructions k e.emitted) :=
    ((hcleared.trans hlaid.revises).trans hset).mono (by simp)
  refine ⟨hconverting, hl.retains.trans hrevises.toRetains, fun l hlb hlks => ?_, fun h => ?_⟩
  · show Laid c b (e.body.setInstructions k e.emitted) l (b.block l).instructions
      ((e.body.setInstructions k e.emitted).block l).instructions
    rw [block_setInstructions _ hke]
    by_cases hlk : l = k
    · subst hlk
      obtain ⟨js, hjs, hemitted⟩ := hlaid.laid
      rw [if_pos rfl, hemitted]
      exact hjs.revised (hemitted ▸ hset) fun _ _ => List.not_mem_nil
    · have hsame : (e.body.block l).instructions = (m.body.block l).instructions := by
        rw [hlaid.lists l, block_setInstructions _ hkm]
        simp only [if_neg hlk]
      have hold := hl.laid l hlb fun h => (List.mem_cons.1 h).elim hlk hlks
      simp only [if_neg hlk, hsame]
      refine hold.revised hrevises fun j hj hjk => ?_
      -- an instruction of the block is not in another one, and the others are new
      obtain ⟨hjb, hjblock⟩ := (hb.mem_instructions k j).1 hjk
      rcases (hold.mem j hj).2 with hjl | hnew
      · exact hlk (((hb.mem_instructions l j).1 hjl).2.symm.trans hjblock)
      · exact hnew hjb
  · refine (hlaid.maxStack h).trans ?_
    show m.maxStack ≤ h ∧ _ ↔ _
    rw [hl.maxStack]
    constructor
    · rintro ⟨hold, hnew⟩ l hlb hlks
      by_cases hlk : l = k
      · exact hlk ▸ hnew
      · exact hold l hlb fun h => (List.mem_cons.1 h).elim hlk hlks
    · exact fun hall =>
        ⟨fun l hlb hlks => hall l hlb fun h => hlks (List.mem_cons_of_mem k h), hall k hkb hks⟩

/-- **Every block is laid out.** -/
theorem insertLoadsAndStores_laid (hb : b.WellFormed) (hmoves : NoMoves b) {m : Lowering}
    (hrun : c.insertLoadsAndStores { body := b } = (m, none)) : Laying c b [] m := by
  obtain ⟨m₁, hm₁, rfl⟩ := insertLoadsAndStores_run hrun
  have hstart : Laying c b b.blocks.indices { body := b } := by
    refine ⟨⟨Kept.refl c b, ReadersKept.refl c b, fun _ _ => rfl, fun _ _ _ _ => rfl, ?_⟩,
      .refl b, ?_, fun h => ?_⟩
    · exact fun k hk hnot => absurd (Table.mem_indices.2 hk) hnot
    · exact fun k hk hnot => absurd (Table.mem_indices.2 hk) hnot
    · exact iff_of_true (Nat.zero_le h) fun k hk hnot => absurd (Table.mem_indices.2 hk) hnot
  have hend := attemptAll_ok (motive := fun ks m => ks.Nodup ∧ (∀ k ∈ ks, k ∈ b.blocks) ∧
      Laying c b ks m) (fun k ks m m' hstep ⟨hnodup, hmem, hl⟩ => by
      obtain ⟨hk, hnodup'⟩ := List.nodup_cons.1 hnodup
      obtain ⟨hkb, hmem'⟩ := List.forall_mem_cons.1 hmem
      exact ⟨hnodup', hmem', convertBlock_laid hb hmoves hkb hk hl hstep⟩)
    hm₁ ⟨Table.nodup_indices _, fun k hk => Table.mem_indices.1 hk, hstart⟩
  exact ⟨hend.2.2.converting, hend.2.2.retains, hend.2.2.laid, hend.2.2.maxStack⟩

end StackCoding

namespace PhiMoves

open StackCoding

variable {c : StackCoding} {b b' f : Body} {k : BlockId} {line : Option UInt32} {h : Nat}
  {ms : List PhiMove} {is : List InsnId}

/-- Moves that were described from a later body. -/
theorem MoveRun.rebase (hm : MoveRun c b' f k line h ms is) (hr : b.Retains b')
    (hms : ∀ m ∈ ms, m.operand ∈ b.values ∧ c.constant? b' m.operand = c.constant? b m.operand) :
    MoveRun c b f k line h ms is := by
  induction hm with
  | nil h => exact .nil h
  | cons pushed _ new mem stored ih =>
    obtain ⟨⟨hmem, hconstant⟩, hms⟩ := List.forall_mem_cons.1 hms
    refine .cons (pushed.rebase hr hmem hconstant) ?_
      (fun hs => new (hr.mem_instructions _ hs)) mem stored
    rw [← hr.type _ hmem]
    exact ih hms

/-- An instruction of moves pushes the operand of one of them, or stores into its phi. -/
theorem MoveRun.cases (hm : MoveRun c b f k line h ms is) : ∀ i ∈ is,
    (∃ m ∈ ms, ∃ n entry, Pushed c b f k line n m.operand entry i) ∨
      ∃ m ∈ ms, ∃ entry, i ∉ b.instructions ∧
        f.instruction i = ⟨.store, [entry], some m.phi, k, line⟩ := by
  induction hm with
  | nil => exact fun _ hi => absurd hi List.not_mem_nil
  | @cons n m ms entry j s is pushed _ new mem stored ih =>
    intro i hi
    rcases List.mem_append.1 hi with hi | hi
    · rcases List.mem_cons.1 hi with rfl | hi
      · exact Or.inl ⟨m, List.mem_cons_self, n, entry, pushed⟩
      · refine (ih i hi).imp ?_ ?_
        · rintro ⟨m', hm', hpushed⟩
          exact ⟨m', List.mem_cons_of_mem _ hm', hpushed⟩
        · rintro ⟨m', hm', hstored⟩
          exact ⟨m', List.mem_cons_of_mem _ hm', hstored⟩
    · obtain rfl := List.mem_singleton.1 hi
      exact Or.inr ⟨m, List.mem_cons_self, entry, new, stored⟩

end PhiMoves

namespace Body

open StackCoding PhiMoves

variable {b b' f : Body} {c : StackCoding} {a a' : Locals} {k : BlockId} {m : Lowering}

/-- A block of stack code: what its instructions become, with moves before the jump that ends it. -/
structure Arranged (c : StackCoding) (b f : Body) (k : BlockId) (moves : List PhiMove)
    (front added : List InsnId) (jump : Option InsnId) : Prop where
  list : (f.block k).instructions = front ++ added ++ jump.toList
  laid : Laid c b f k (b.block k).instructions (front ++ jump.toList)
  run : ∃ line, MoveRun c b f k line 0 moves added
  jump_eq : f.jump? k = jump
  operand : ∀ m ∈ moves, m.operand ∈ b.operands m.phi

theorem Arranged.written {moves : List PhiMove} {front added : List InsnId} {jump : Option InsnId}
    (ha : Arranged c b f k moves front added jump) (hb : b.WellFormed) :
    ∀ j ∈ (f.block k).instructions, Written c b f k (f.block k).instructions j := by
  obtain ⟨line, hrun⟩ := ha.run
  have hcode : ∀ j ∈ front ++ jump.toList, j ∈ (f.block k).instructions := by
    intro j hj
    rw [ha.list, List.mem_append, List.mem_append]
    exact (List.mem_append.1 hj).imp_left Or.inl
  obtain ⟨hfront, hjump⟩ := List.forall_mem_append.1 (ha.laid.written hb (fun _ hi => hi) hcode)
  intro j hj
  rw [ha.list, List.mem_append, List.mem_append] at hj
  rcases hj with (hj | hj) | hj
  · exact hfront j hj
  · rcases hrun.cases j hj with ⟨m, hm, n, entry, hpushed⟩ | ⟨m, hm, entry, hnew, hstored⟩
    · exact .pushed hpushed.new (isEmpty_users_of_operand hb (ha.operand m hm)) hpushed.instruction
        hpushed.entry.type_eq
    · exact .moved hnew (ha.operand m hm) hstored
  · exact hjump j hj

theorem widthOf_congr {vs : List ValueId} (h : ∀ v ∈ vs, (b'.value v).type = (b.value v).type) :
    b'.widthOf vs = b.widthOf vs :=
  sumOver_congr fun v hv => congrArg width (h v hv)

/-- A body in which nothing is on the stack yet. -/
theorem noMoves_of_plain
    (hplain : ∀ i ∈ b.instructions, (b.instruction i).operation ∉ [.load, .store, .pop]) :
    NoMoves b :=
  fun i hi => ⟨fun he => hplain i hi (by simp [he]), fun he => hplain i hi (by simp [he])⟩

/-- **Every block of stack code is arranged**, and the height of the stack is measured over all of
them. -/
theorem toStackCode_arranged (hb : b.WellFormed) (hmoves : NoMoves b)
    (hcode : b.toStackCode c a = ((m, a'), none)) :
    a'.slot? = a.slot? ∧ b.Retains m.body ∧ ∃ moves : BlockId → List PhiMove,
      (∀ k ∈ b.blocks, ∃ front added jump, Arranged c b m.body k (moves k) front added jump) ∧
      ∀ h, m.maxStack ≤ h ↔ ∀ k ∈ b.blocks,
        (∀ i ∈ (b.block k).instructions, c.room b (b.instruction i) ≤ h) ∧
          b.widthOf ((moves k).map PhiMove.operand) ≤ h := by
  obtain ⟨m₁, hm₁, hcode⟩ := toStackCode_run hcode
  have hhalfway := insertLoadsAndStores_halfway hb hm₁
  have hlaying := insertLoadsAndStores_laid hb hmoves hm₁
  have hresolvable := resolvable_of_halfway hb hhalfway
  obtain ⟨hslots, moves, hresolved⟩ := insertPhiMoves_resolved hresolvable hcode
  have hgrows := hresolved.grows
  -- the moves of a block are those of an edge, so their operands are operands of their phis
  have hoperand : ∀ k, ∀ n ∈ moves k, n.operand ∈ b.operands n.phi := by
    intro k n hn
    obtain ⟨-, l, position, -, he⟩ := hresolved.single k (List.ne_nil_of_mem hn)
    rw [hresolved.edge l position k trivial he] at hn
    obtain ⟨⟨hp, hv⟩, -⟩ := mem_onEdge.1 hn
    rw [hhalfway.retains.phis] at hp
    obtain ⟨k', ho⟩ := origin_of_isPhi (hb.isPhi_of_mem_phis hp)
    have hsame : m₁.body.operands n.phi = b.operands n.phi := by
      rw [Body.operands, Value.operands, hhalfway.retains.phi _ _ _ ho]
    exact hsame ▸ List.mem_of_getElem? hv
  have hextent : ∀ k, m₁.body.widthOf ((moves k).map PhiMove.operand) =
      b.widthOf ((moves k).map PhiMove.operand) := by
    intro k
    refine widthOf_congr fun v hv => ?_
    obtain ⟨n, hn, rfl⟩ := List.mem_map.1 hv
    exact hhalfway.retains.type _ (hb.operands_mem _ _ (hoperand k n hn))
  refine ⟨hslots, hhalfway.retains.trans hgrows.toRetains, moves, fun k hk => ?_, fun h => ?_⟩
  · obtain ⟨added, hlist, hrun⟩ := hresolved.blocks k
    refine ⟨_, added, _, hlist, ?_, ⟨_, hrun.rebase hhalfway.retains fun n hn => ?_⟩, ?_,
      hoperand k⟩
    · rw [splitJump_append]
      exact (hlaying.laid k hk List.not_mem_nil).revised hgrows.revises fun _ _ => List.not_mem_nil
    · have hmem := hb.operands_mem _ _ (hoperand k n hn)
      exact ⟨hmem, hlaying.converting.kept.constant? hb hmem⟩
    · rw [snd_splitJump]
      exact (hresolved.blocks k).jump? hhalfway.closed hgrows
  · have hnone : ∀ k, k ∉ b.blocks → moves k = [] := by
      intro k hk
      by_contra hne
      obtain ⟨-, l, position, -, he⟩ := hresolved.single k hne
      exact hk ((hhalfway.retains.mem_blocks k).1
        (hhalfway.closed.predecessors l k (List.mem_of_getElem? he)))
    rw [hresolved.maxStack, hlaying.maxStack]
    constructor
    · rintro ⟨hrooms, hextents⟩ k hk
      exact ⟨hrooms k hk List.not_mem_nil, hextent k ▸ hextents k⟩
    · intro hall
      refine ⟨fun k hk _ => (hall k hk).1, fun k => ?_⟩
      by_cases hk : k ∈ b.blocks
      · exact hextent k ▸ (hall k hk).2
      · rw [hnone k hk]
        exact Nat.zero_le h

end Body

end JvmLowering
