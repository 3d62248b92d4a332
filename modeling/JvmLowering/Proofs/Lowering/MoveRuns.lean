import JvmLowering.Proofs.Lowering.SlotTypes

/-!
# The instructions that phis become

Phis are replaced by adding instructions and nothing else: all that was there stays as it was. What
is added to a block are the moves of one edge, since a block that gets moves leads nowhere else.
They stand together, right before the jump that ends the block.

* `Body.Grows`: a body to which something has been added;
* `StackCoding.Pushed`, `PhiMoves.MoveRun`: the instructions of pushes and moves, with the stack
  entries that they use;
* `PhiMoves.Resolved`: which moves each block has got, and how high they reach;
* `PhiMoves.insertPhiMoves_resolved`: every edge has its moves in the end.
-/

namespace JvmLowering

/-! ### Places on the stack -/

namespace Value

/-- The place of an entry of the stack. -/
def slot? (v : Value) : Option StackSlot :=
  match v.origin with
  | .stack slot _ => some slot
  | _ => none

theorem slot?_congr {v w : Value} (h : v.origin = w.origin) : v.slot? = w.slot? := by
  unfold slot?
  rw [h]

theorem slot?_defineBy (v : Value) (i : InsnId) : (v.defineBy i).slot? = v.slot? := by
  obtain ⟨origin, type, users⟩ := v
  cases origin <;> rfl

end Value

namespace Body

variable {b b' b'' : Body} {i j : InsnId} {v w : ValueId} {k l : BlockId} {stored : ValueId → Prop}

theorem slot?_pushInstruction (b : Body) (v : ValueId) (insn : Instruction) :
    ((b.pushInstruction insn).2.value v).slot? = (b.value v).slot? := by
  have horigin := origin_pushInstruction b v insn
  split at horigin
  · rw [Value.slot?_congr horigin, Value.slot?_defineBy]
  · exact Value.slot?_congr horigin

/-- An entry of the stack stays where it is. -/
theorem Change.slot? (h : Change i stored b b') (hv : v ∈ b.values) :
    (b'.value v).slot? = (b.value v).slot? := by
  cases h with
  | entry slot type => rw [value_pushStackValue hv]
  | push => exact slot?_pushInstruction ..
  | input => exact Value.slot?_congr (origin_replaceInput ..)
  | @output w there mem stack =>
    exact value_modifyValue_congr _ _ _ Value.slot? fun x => x.slot?_defineBy i

theorem Changes.slot? (h : Changes i stored b b') (hv : v ∈ b.values) :
    (b'.value v).slot? = (b.value v).slot? := by
  induction h with
  | refl => rfl
  | tail hfirst hlast ih => exact (hlast.slot? ((Changes.retains hfirst).mem_values v hv)).trans ih

/-! ### Bodies that grow -/

theorem Retains.isPhi (h : Retains b b') (hv : (b.value v).isPhi = true) :
    (b'.value v).isPhi = true := by
  obtain ⟨l, ho⟩ := origin_of_isPhi hv
  rw [Value.isPhi, h.phi v l _ ho]

/-- All that was there is there, and only who reads a value may have changed. -/
structure Grows (b b' : Body) : Prop extends Retains b b' where
  instruction : ∀ j ∈ b.instructions, b'.instruction j = b.instruction j
  origin : ∀ v ∈ b.values, (b.value v).isStack = false → (b'.value v).origin = (b.value v).origin
  slot? : ∀ v ∈ b.values, (b'.value v).slot? = (b.value v).slot?

theorem Grows.refl (b : Body) : Grows b b :=
  ⟨.refl b, fun _ _ => rfl, fun _ _ _ => rfl, fun _ _ => rfl⟩

theorem Grows.trans (h : Grows b b') (h' : Grows b' b'') : Grows b b'' where
  toRetains := h.toRetains.trans h'.toRetains
  instruction j hj := (h'.instruction j (h.mem_instructions j hj)).trans (h.instruction j hj)
  origin v hv hstack :=
    (h'.origin v (h.mem_values v hv) (h.toRetains.isStack hstack)).trans (h.origin v hv hstack)
  slot? v hv := (h'.slot? v (h.mem_values v hv)).trans (h.slot? v hv)

/-- Changes that touch no instruction and store only phis. -/
theorem Grows.of_changes (h : Changes i stored b b') (hi : i ∉ b.instructions)
    (hstored : ∀ v, stored v → (b.value v).isPhi = true) :
    Grows b b' := by
  refine ⟨h.retains, fun j hj => h.instruction hj (fun hji => hi (hji ▸ hj)), fun v _ hstack => ?_,
    fun v hv => h.slot? hv⟩
  cases hphi : (b.value v).isPhi with
  | true =>
    obtain ⟨l, ho⟩ := origin_of_isPhi hphi
    exact (h.retains.phi v l _ ho).trans ho.symm
  | false =>
    refine h.origin (fun hv => ?_) fun slot definition ho => ?_
    · rw [hstored v hv] at hphi
      exact Bool.noConfusion hphi
    · simp [Value.isStack, ho] at hstack

theorem grows_setInstructions (hk : k ∈ b.blocks) (is : List InsnId) :
    Grows b (b.setInstructions k is) :=
  ⟨retains_setInstructions hk is, fun _ _ => rfl, fun _ _ _ => rfl, fun _ _ => rfl⟩

theorem grows_detach (b : Body) (p : ValueId) : Grows b (PhiMoves.detach b p) := by
  refine List.foldlRecOn (b.operands p) _ (Grows.refl b) fun b' h v _ => h.trans ?_
  exact ⟨retains_removePhiReader v p, fun _ _ => rfl,
    fun _ _ _ => value_modifyValue_congr _ _ _ Value.origin fun _ => rfl,
    fun _ _ => value_modifyValue_congr _ _ _ Value.slot? fun _ => rfl⟩

theorem closed_detach (hc : b.Closed) (p : ValueId) : (PhiMoves.detach b p).Closed :=
  List.foldlRecOn (b.operands p) _ hc fun _ h v _ => h.removePhiReader v p

/-- What makes a value that is not on the stack stays. -/
theorem Grows.definition? (h : Grows b b') (hc : b.Closed) (hv : v ∈ b.values)
    (hstack : (b.value v).isStack = false) :
    b'.definition? v = b.definition? v := by
  have hdefinition : (b'.value v).definition? = (b.value v).definition? := by
    rw [Value.definition?, Value.definition?, h.origin v hv hstack]
  unfold Body.definition?
  rw [hdefinition]
  cases hj : (b.value v).definition? with
  | none => rfl
  | some j => exact congrArg some (h.instruction j (hc.definition v j hj))

theorem Grows.constant? (h : Grows b b') (hc : b.Closed) (hv : v ∈ b.values)
    (hstack : (b.value v).isStack = false) (c : StackCoding) :
    c.constant? b' v = c.constant? b v := by
  unfold StackCoding.constant?
  rw [h.definition? hc hv hstack, h.toRetains.isStack hstack, hstack]

/-- The jump that ends a block. -/
def jump? (b : Body) (k : BlockId) : Option InsnId :=
  (b.block k).exit?.filter fun i => (b.instruction i).operation.isGoto

end Body

/-! ### Pushed values -/

namespace StackCoding

open Body Emitter

variable {c : StackCoding} {b b' f f' : Body} {e e' : Emitter} {i j : InsnId} {v w entry : ValueId}
  {k : BlockId} {h : Nat} {line : Option UInt32} {vs es : List ValueId} {js : List InsnId}

theorem width_stackType (c : StackCoding) (hv : (b.value v).isStack = false) :
    width (c.stackType b v) = width (b.value v).type := by
  have hdeclared : width (StackType.ofDeclared (b.value v).type) = width (b.value v).type :=
    StackType.width_ofDeclared _
  rcases c.stackType_cases hv with htype | ⟨hreference, hobject⟩
  · rw [htype, hdeclared]
  · rw [← hdeclared]
    exact StackType.Alike.width_eq (Or.inr ⟨hobject, StackType.isObject_ofDeclared hreference⟩)

/-- A stack entry at a height that has the type of a value, and its width. -/
structure StandsFor (f : Body) (height : Nat) (type : DeclaredType ClassId) (entry : ValueId) :
    Prop where
  mem : entry ∈ f.values
  type_eq : (f.value entry).type = type
  slot : ∃ t, (f.value entry).slot? = some ⟨height, t⟩ ∧ width t = width type

theorem StandsFor.kept {type : DeclaredType ClassId} (hs : StandsFor f h type entry)
    (hr : f.Retains f') (hslot : (f'.value entry).slot? = (f.value entry).slot?) :
    StandsFor f' h type entry := by
  refine ⟨hr.mem_values _ hs.mem, (hr.type _ hs.mem).trans hs.type_eq, ?_⟩
  rw [hslot]
  exact hs.slot

/-- The instruction that pushes a value. -/
def pushing (c : StackCoding) (b : Body) (k : BlockId) (line : Option UInt32) (v entry : ValueId) :
    Instruction :=
  match c.constant? b v with
  | some constant => ⟨.constant constant, [], some entry, k, line⟩
  | none => ⟨.load, [v], some entry, k, line⟩

/-- An instruction, which was not there before, pushes a value. -/
structure Pushed (c : StackCoding) (b f : Body) (k : BlockId) (line : Option UInt32) (h : Nat)
    (v entry : ValueId) (j : InsnId) : Prop where
  new : j ∉ b.instructions
  mem : j ∈ f.instructions
  instruction : f.instruction j = c.pushing b k line v entry
  entry : StandsFor f h (b.value v).type entry

theorem Pushed.kept (hp : Pushed c b f k line h v entry j) (hr : f.Retains f')
    (hslot : ∀ w ∈ f.values, (f'.value w).slot? = (f.value w).slot?)
    (hj : f'.instruction j = f.instruction j) :
    Pushed c b f' k line h v entry j :=
  ⟨hp.new, hr.mem_instructions j hp.mem, hj.trans hp.instruction,
    hp.entry.kept hr (hslot entry hp.entry.mem)⟩

/-- A push that was described from a later body. -/
theorem Pushed.rebase (hp : Pushed c b' f k line h v entry j) (hr : b.Retains b')
    (hv : v ∈ b.values) (hconstant : c.constant? b' v = c.constant? b v) :
    Pushed c b f k line h v entry j := by
  refine ⟨fun hj => hp.new (hr.mem_instructions j hj), hp.mem, ?_, ?_⟩
  · rw [hp.instruction, pushing, pushing, hconstant]
  · rw [← hr.type v hv]
    exact hp.entry

/-- What an emitter has done when it has pushed a value. -/
structure OperandPushed (c : StackCoding) (k : BlockId) (line : Option UInt32) (e e' : Emitter)
    (v entry : ValueId) : Prop where
  pushed : Pushed c e.body e'.body k line e.stack.extent v entry e.body.instructions.next
  emitted : e'.emitted = e.emitted ++ [e.body.instructions.next]
  pop : e'.stack.pop = e.stack
  extent : e'.stack.extent = e.stack.extent + width (e.body.value v).type
  maxStack : e'.maxStack = max e.maxStack (e.stack.extent + width (e.body.value v).type)

theorem pushOperand_eq (c : StackCoding) (k : BlockId) (line : Option UInt32)
    (hv : v ∈ e.body.values) :
    ∃ event, c.pushOperand k line e v = (e.body.values.next,
      ((e.pushEntry v (c.stackType e.body v)).2.report event).emit
        (c.pushing e.body k line v e.body.values.next)) := by
  have hconstant : c.constant? (e.pushEntry v (c.stackType e.body v)).2.body v =
    c.constant? e.body v := constant?_pushValue hv
  unfold pushOperand pushing
  simp only [hconstant]
  cases c.constant? e.body v with
  | some constant => exact ⟨_, rfl⟩
  | none => exact ⟨_, rfl⟩

theorem pushOperand_pushed (c : StackCoding) (k : BlockId) (line : Option UInt32)
    (hv : v ∈ e.body.values) (hstack : (e.body.value v).isStack = false) :
    OperandPushed c k line e (c.pushOperand k line e v).2 v (c.pushOperand k line e v).1 := by
  have hwidth := c.width_stackType hstack
  obtain ⟨event, heq⟩ := pushOperand_eq (e := e) c k line hv
  rw [heq]
  generalize hinsn : c.pushing e.body k line v e.body.values.next = insn
  -- the new entry is there before the instruction that makes it
  have hpushed : (e.pushEntry v (c.stackType e.body v)).2.body.value e.body.values.next =
      ⟨.stack ⟨e.stack.extent, c.stackType e.body v⟩ none, (e.body.value v).type, {}⟩ :=
    (value_pushValue e.body _ _).trans (if_pos rfl)
  have htype : ((e.pushEntry v (c.stackType e.body v)).2.body.value e.body.values.next).type =
    (e.body.value v).type := by rw [hpushed]
  have hmem : e.body.values.next ∈ (e.pushEntry v (c.stackType e.body v)).2.body.values :=
    Table.mem_push.2 (Or.inr rfl)
  have hslot : (((e.pushEntry v (c.stackType e.body v)).2.body.pushInstruction insn).2.value
      e.body.values.next).slot? = some ⟨e.stack.extent, c.stackType e.body v⟩ := by
    rw [slot?_pushInstruction, hpushed]
    rfl
  refine ⟨⟨Table.next_notMem _, ?_, ?_, ?_, ?_, ?_⟩, rfl, rfl, ?_, ?_⟩
  · exact (mem_instructions_pushInstruction ..).2 (Or.inr rfl)
  · exact (instruction_pushInstruction ..).trans ((if_pos rfl).trans hinsn.symm)
  · exact (mem_values_pushInstruction ..).2 hmem
  · exact (type_pushInstruction ..).trans htype
  · exact ⟨c.stackType e.body v, hslot, hwidth⟩
  · exact congrArg (e.stack.extent + ·) hwidth
  · exact congrArg (fun n => max e.maxStack (e.stack.extent + n)) hwidth

end StackCoding

/-! ### Moves -/

namespace Emitter

open Body

variable {e e' e'' : Emitter} {stored : ValueId → Prop}

/-- Instructions have been added to the body, but not yet to a block. -/
structure Adds (e e' : Emitter) : Prop where
  grows : e.body.Grows e'.body
  closed : e.body.Closed → e'.body.Closed
  instructions : ∀ l, (e'.body.block l).instructions = (e.body.block l).instructions

theorem Adds.refl (e : Emitter) : Adds e e := ⟨.refl _, id, fun _ => rfl⟩

theorem Adds.trans (h : Adds e e') (h' : Adds e' e'') : Adds e e'' :=
  ⟨h.grows.trans h'.grows, fun hc => h'.closed (h.closed hc),
    fun l => (h'.instructions l).trans (h.instructions l)⟩

theorem Adds.of_writes (h : Writes e.body.instructions.next stored e e')
    (hstored : ∀ v, stored v → (e.body.value v).isPhi = true) :
    Adds e e' :=
  ⟨.of_changes h.changes (Table.next_notMem _) hstored, fun hc => h.changes.closed hc,
    fun l => h.changes.instructions l⟩

end Emitter

namespace PhiMoves

open Body Emitter StackCoding

variable {c : StackCoding} {b b' f f' : Body} {e e' : Emitter} {m m' : Lowering} {a a' : Locals}
  {j s : InsnId} {v entry : ValueId} {k l : BlockId} {h : Nat} {line : Option UInt32}
  {ms : List PhiMove} {is : List InsnId}

/-- Moves as instructions: all operands are pushed, and then the phis are stored in reverse. -/
inductive MoveRun (c : StackCoding) (b f : Body) (k : BlockId) (line : Option UInt32) :
    Nat → List PhiMove → List InsnId → Prop
  | nil (h : Nat) : MoveRun c b f k line h [] []
  | cons {h : Nat} {m : PhiMove} {ms : List PhiMove} {entry : ValueId} {j s : InsnId}
      {is : List InsnId}
      (pushed : Pushed c b f k line h m.operand entry j)
      (rest : MoveRun c b f k line (h + width (b.value m.operand).type) ms is)
      (new : s ∉ b.instructions) (mem : s ∈ f.instructions)
      (stored : f.instruction s = ⟨.store, [entry], some m.phi, k, line⟩) :
      MoveRun c b f k line h (m :: ms) (j :: is ++ [s])

theorem MoveRun.grows (hr : MoveRun c b f k line h ms is) (hg : f.Grows f') :
    MoveRun c b f' k line h ms is := by
  induction hr with
  | nil h => exact .nil h
  | cons pushed _ new mem stored ih =>
    exact .cons (pushed.kept hg.toRetains hg.slot? (hg.instruction _ pushed.mem)) ih new
      (hg.mem_instructions _ mem) ((hg.instruction _ mem).trans stored)

/-- Pushes the operands of some moves and stores them. -/
def moveAll (c : StackCoding) (k : BlockId) (line : Option UInt32) (e : Emitter)
    (ms : List PhiMove) : Emitter :=
  (pushAll c k line e ms).1.reverse.foldl (store k line) (pushAll c k line e ms).2

/-- The first phi is stored last. -/
theorem moveAll_cons (c : StackCoding) (k : BlockId) (line : Option UInt32) (e : Emitter)
    (m : PhiMove) (ms : List PhiMove) :
    moveAll c k line e (m :: ms) =
      store k line (moveAll c k line (c.pushOperand k line e m.operand).2 ms)
        (m, (c.pushOperand k line e m.operand).1) := by
  simp [moveAll, pushAll]

/-- A move of an operand into a phi, none of which is on the stack. -/
structure Movable (b : Body) (m : PhiMove) : Prop where
  mem : m.operand ∈ b.values
  stack : (b.value m.operand).isStack = false
  phi : (b.value m.phi).isPhi = true

/-- What is known when moves have been emitted. -/
structure MovesEmitted (c : StackCoding) (b : Body) (k : BlockId) (line : Option UInt32)
    (e e' : Emitter) (ms : List PhiMove) :
    Prop where
  adds : Adds e e'
  run : ∃ added, e'.emitted = e.emitted ++ added ∧
    MoveRun c b e'.body k line e.stack.extent ms added
  stack : e'.stack = e.stack
  maxStack : e'.maxStack = max e.maxStack (e.stack.extent + b.widthOf (ms.map PhiMove.operand))

theorem moveAll_emitted (hc : b.Closed) (hg : b.Grows e.body) (hk : k ∈ b.blocks)
    (line : Option UInt32) (hms : ∀ m ∈ ms, Movable b m) (hextent : e.stack.extent ≤ e.maxStack) :
    MovesEmitted c b k line e (moveAll c k line e ms) ms := by
  induction ms generalizing e with
  | nil => exact ⟨.refl e, ⟨[], (List.append_nil _).symm, .nil _⟩,
      rfl, by simp [moveAll, pushAll, hextent]⟩
  | cons m ms ih =>
    obtain ⟨⟨hmem, hstack, hphi⟩, hms⟩ := List.forall_mem_cons.1 hms
    have hmem' := hg.mem_values _ hmem
    have hpushed := pushOperand_pushed c k line hmem' (hg.toRetains.isStack hstack)
    obtain ⟨hwrites, hentry⟩ :=
      pushOperand_writes c e.body.instructions.next (fun _ => False) line hmem'
        ((hg.mem_blocks k).2 hk)
    have hadds : Adds e (c.pushOperand k line e m.operand).2 :=
      .of_writes hwrites fun _ hv => hv.elim
    rw [moveAll_cons]
    generalize c.pushOperand k line e m.operand = r at hpushed hentry hadds
    obtain ⟨entry, e₁⟩ := r
    simp only at hpushed hentry hadds ⊢
    have hg₁ := hg.trans hadds.grows
    have hwidth : width (e.body.value m.operand).type = width (b.value m.operand).type := by
      rw [hg.type _ hmem]
    have hextent₁ : e₁.stack.extent ≤ e₁.maxStack := by
      rw [hpushed.extent, hpushed.maxStack]
      exact Nat.le_max_right ..
    obtain ⟨hadds₂, ⟨added, hemitted, hrun⟩, hstack₂, hmax₂⟩ := ih hg₁ hms hextent₁
    generalize moveAll c k line e₁ ms = e₂ at hadds₂ hemitted hrun hstack₂ hmax₂
    have hg₂ := hg₁.trans hadds₂.grows
    -- the store of the first phi comes after all that has been emitted for the others
    have hstore : Writes e₂.body.instructions.next (fun v => v = m.phi) e₂
        (store k line e₂ (m, entry)) :=
      store_writes line (hadds₂.grows.mem_values _ hentry)
        (hg₂.mem_values _ (mem_values_of_isPhi hphi)) rfl ((hg₂.mem_blocks k).2 hk)
    have hadds₃ : Adds e₂ (store k line e₂ (m, entry)) := by
      refine .of_writes hstore fun v hv => ?_
      rw [hv]
      exact hg₂.toRetains.isPhi hphi
    refine ⟨(hadds.trans hadds₂).trans hadds₃,
      ⟨e.body.instructions.next :: added ++ [e₂.body.instructions.next], ?_, ?_⟩, ?_, ?_⟩
    · show e₂.emitted ++ [e₂.body.instructions.next] = _
      rw [hemitted, hpushed.emitted]
      simp
    · have hpushed₀ :
          Pushed c b e₁.body k line e.stack.extent m.operand entry e.body.instructions.next :=
        hpushed.pushed.rebase hg.toRetains hmem (hg.constant? hc hmem hstack c)
      have hlater := hadds₂.grows.trans hadds₃.grows
      rw [hpushed.extent, hwidth] at hrun
      refine .cons (hpushed₀.kept hlater.toRetains hlater.slot? (hlater.instruction _ hpushed₀.mem))
        (hrun.grows hadds₃.grows)
        (fun hnew => Table.next_notMem _ (hg₂.mem_instructions _ hnew)) ?_ ?_
      · exact (mem_instructions_pushInstruction ..).2 (Or.inr rfl)
      · exact (instruction_pushInstruction ..).trans (if_pos rfl)
    · show e₂.stack.pop = e.stack
      rw [hstack₂, hpushed.pop]
    · show e₂.maxStack = _
      rw [hmax₂, hpushed.maxStack, hpushed.extent, hwidth, List.map_cons, widthOf_cons]
      omega

/-! ### Moves at the end of a block -/

theorem MoveRun.mem (hr : MoveRun c b f k line h ms is) :
    ∀ i ∈ is, i ∈ f.instructions ∧ i ∉ b.instructions := by
  induction hr with
  | nil => exact fun _ hi => absurd hi List.not_mem_nil
  | cons pushed _ new mem _ ih =>
    intro i hi
    rcases List.mem_append.1 hi with hi | hi
    · rcases List.mem_cons.1 hi with rfl | hi
      · exact ⟨pushed.mem, pushed.new⟩
      · exact ih i hi
    · rw [List.mem_singleton.1 hi]
      exact ⟨mem, new⟩

theorem splitJump_append (b : Body) (is : List InsnId) :
    (splitJump b is).1 ++ (splitJump b is).2.toList = is := by
  unfold splitJump
  split
  · rename_i i hi
    split
    · exact List.dropLast_append_getLast? i hi
    · exact List.append_nil is
  · exact List.append_nil is

theorem snd_splitJump (b : Body) (k : BlockId) :
    (splitJump b (b.block k).instructions).2 = b.jump? k := by
  unfold splitJump Body.jump? Block.exit?
  cases (b.block k).instructions.getLast? with
  | none => rfl
  | some i =>
    simp only [Option.filter_some]
    split <;> rfl

theorem splitJump_congr (hi : ∀ i ∈ is, f.instruction i = b.instruction i) :
    splitJump f is = splitJump b is := by
  unfold splitJump
  split
  · rename_i i hlast
    rw [hi i (List.mem_of_getLast? hlast)]
  · rfl

/-- The line of the jump that ends a block. -/
def exitLine (b : Body) (k : BlockId) : Option UInt32 :=
  (splitJump b (b.block k).instructions).2.bind fun i => (b.instruction i).line

/-- A block has moves right before the jump that ends it, or at its end, and is as it was apart from
them. -/
def HasMoves (c : StackCoding) (b f : Body) (k : BlockId) (ms : List PhiMove) : Prop :=
  ∃ added, (f.block k).instructions =
      (splitJump b (b.block k).instructions).1 ++ added ++
      (splitJump b (b.block k).instructions).2.toList ∧
    MoveRun c b f k (exitLine b k) 0 ms added

theorem hasMoves_nil (hlist : (f.block k).instructions = (b.block k).instructions) :
    HasMoves c b f k [] := by
  refine ⟨[], ?_, .nil 0⟩
  rw [hlist, List.append_nil, splitJump_append]

theorem HasMoves.instructions (hm : HasMoves c b f k []) :
    (f.block k).instructions = (b.block k).instructions := by
  obtain ⟨added, hlist, hrun⟩ := hm
  cases hrun
  rw [hlist, List.append_nil, splitJump_append]

theorem HasMoves.grows (hm : HasMoves c b f k ms) (hg : f.Grows f')
    (hlist : (f'.block k).instructions = (f.block k).instructions) : HasMoves c b f' k ms := by
  obtain ⟨added, heq, hrun⟩ := hm
  exact ⟨added, hlist.trans heq, hrun.grows hg⟩

/-- Moves come before the jump, and where there is none they do not bring one. -/
theorem HasMoves.jump? (hm : HasMoves c b f k ms) (hc : b.Closed) (hg : b.Grows f) :
    f.jump? k = b.jump? k := by
  obtain ⟨added, hlist, hrun⟩ := hm
  have hsame : ∀ i ∈ (b.block k).instructions, f.instruction i = b.instruction i :=
    fun i hi => hg.instruction i (hc.instructions k i hi)
  have hparts := splitJump_append b (b.block k).instructions
  have hjump := snd_splitJump b k
  -- the moves stand before the jump; a block without one ends with a store or as before
  cases hsnd : (splitJump b (b.block k).instructions).2 with
  | some i =>
    rw [hsnd] at hlist hparts hjump
    have hi : i ∈ (b.block k).instructions := by
      rw [← hparts]
      simp
    obtain ⟨-, hgoto⟩ := Option.filter_eq_some_iff.1 hjump.symm
    rw [← hjump, Body.jump?, Block.exit?, hlist, Option.toList_some, List.getLast?_concat]
    exact Option.filter_eq_some_iff.2 ⟨rfl, by rw [hsame i hi, hgoto]⟩
  | none =>
    rw [hsnd, Option.toList_none, List.append_nil] at hlist hparts
    cases hrun with
    | nil =>
      rw [hparts, List.append_nil] at hlist
      unfold Body.jump? Block.exit?
      rw [hlist]
      cases hlast : (b.block k).instructions.getLast? with
      | none => rfl
      | some i => rw [Option.filter_some, Option.filter_some, hsame i (List.mem_of_getLast? hlast)]
    | @cons _ m ms entry j s is _ _ _ _ stored =>
      rw [← hjump, hsnd, Body.jump?, Block.exit?, hlist, ← List.append_assoc,
        List.getLast?_concat, Option.filter_some, stored]
      rfl

/-- What is known when moves have been added to a block. -/
structure Inserted (c : StackCoding) (b : Body) (k : BlockId) (m m' : Lowering)
    (ms : List PhiMove) : Prop where
  grows : m.body.Grows m'.body
  closed : m'.body.Closed
  moves : HasMoves c b m'.body k ms
  others : ∀ l, l ≠ k → (m'.body.block l).instructions = (m.body.block l).instructions
  maxStack : m'.maxStack = max m.maxStack (b.widthOf (ms.map PhiMove.operand))

theorem insert_inserted (hb : b.Closed) (hg : b.Grows m.body) (hc : m.body.Closed)
    (hk : k ∈ b.blocks) (hlist : (m.body.block k).instructions = (b.block k).instructions)
    (hms : ∀ m ∈ ms, Movable b m) :
    Inserted c b k m (PhiMoves.insert c m k ms) ms := by
  -- the block still ends as it did, so it is split at the same jump
  have hsame : ∀ i ∈ (b.block k).instructions, m.body.instruction i = b.instruction i :=
    fun i hi => hg.instruction i (hb.instructions k i hi)
  have hsplit : splitJump m.body (m.body.block k).instructions =
      splitJump b (b.block k).instructions := by
    rw [hlist, splitJump_congr hsame]
  have hparts := splitJump_append b (b.block k).instructions
  have hline : ((splitJump b (b.block k).instructions).2.bind fun i =>
      (m.body.instruction i).line) = exitLine b k := by
    refine Option.bind_congr fun i hi => ?_
    rw [hsame i]
    rw [← hparts]
    exact List.mem_append_right _ (by simp [hi])
  have hmoves :=
    moveAll_emitted (c := c) (e := { m with emitted := (splitJump b (b.block k).instructions).1 })
      hb hg hk (exitLine b k) hms (Nat.zero_le _)
  obtain ⟨e, he⟩ : ∃ e, moveAll c k (exitLine b k)
      { m with emitted := (splitJump b (b.block k).instructions).1 } ms = e := ⟨_, rfl⟩
  rw [he] at hmoves
  -- the moves go between what comes before the jump and the jump
  have heq : PhiMoves.insert c m k ms =
      { e.toLowering with
        body := e.body.setInstructions k
          (e.emitted ++ (splitJump b (b.block k).instructions).2.toList) } := by
    unfold PhiMoves.insert
    simp only [hsplit, hline, ← he]
    rfl
  rw [heq]
  obtain ⟨hadds, ⟨added, hemitted, hrun⟩, -, hmax⟩ := hmoves
  have hke : k ∈ e.body.blocks := (hadds.grows.mem_blocks k).2 ((hg.mem_blocks k).2 hk)
  have hset := grows_setInstructions hke
    (e.emitted ++ (splitJump b (b.block k).instructions).2.toList)
  refine ⟨hadds.grows.trans hset, (hadds.closed hc).setInstructions hke fun j hj => ?_,
    ⟨added, ?_, hrun.grows hset⟩, fun l hl => ?_, ?_⟩
  -- the code of the block is there: its old parts, and the moves between them
  · have hold : j ∈ (b.block k).instructions → j ∈ e.body.instructions :=
      fun hj => hadds.grows.mem_instructions j (hg.mem_instructions j (hb.instructions k j hj))
    rw [hemitted, List.mem_append, List.mem_append] at hj
    rcases hj with (hj | hj) | hj
    · exact hold (hparts ▸ List.mem_append_left _ hj)
    · exact (hrun.mem j hj).1
    · exact hold (hparts ▸ List.mem_append_right _ hj)
  · rw [block_setInstructions _ hke, if_pos rfl, hemitted]
  · rw [block_setInstructions _ hke]
    simp only [if_neg hl]
    exact hadds.instructions l
  · refine hmax.trans ?_
    show max m.maxStack (0 + b.widthOf (ms.map PhiMove.operand)) = _
    rw [Nat.zero_add]

/-! ### Moves for the edges -/

/-- What phis need to be replaced by moves: their operands are there and not on the stack, and each
edge is known at both ends. -/
structure Resolvable (b : Body) : Prop where
  closed : b.Closed
  edges : ∀ k l, (b.block k).successors.count l = (b.block l).predecessors.count k
  phis : ∀ l, ∀ p ∈ (b.block l).phis, (b.value p).isPhi = true
  operands : ∀ l, ∀ p ∈ (b.block l).phis, ∀ v ∈ b.operands p, v ∈ b.values ∧
    (b.value v).isStack = false

theorem resolvable_of_halfway (hb : b.WellFormed)
    (h : Halfway c b (fun _ => True) b') : Resolvable b' := by
  refine ⟨h.closed, fun k l => ?_, fun l p hp => ?_, fun l p hp v hv => ?_⟩
  · rw [h.retains.successors, h.retains.predecessors]
    exact hb.edges k l
  · rw [h.retains.phis] at hp
    obtain ⟨k, ho⟩ := origin_of_isPhi (hb.isPhi_of_mem_phis hp)
    rw [Value.isPhi, h.retains.phi p k _ ho]
  · rw [h.retains.phis] at hp
    obtain ⟨k, ho⟩ := origin_of_isPhi (hb.isPhi_of_mem_phis hp)
    rw [Body.operands, Value.operands, h.retains.phi p k _ ho] at hv
    have hmem := hb.operands_mem p v hv
    exact ⟨h.retains.mem_values v hmem, h.isStack hb hmem⟩

variable {served : BlockId → Nat → Prop} {moves : BlockId → List PhiMove} {start position : Nat}
  {source : BlockId}

/-- What a list holds once has one position in it. -/
theorem position_unique {xs : List BlockId} (hcount : xs.count k ≤ 1) {n n' : Nat}
    (hn : xs[n]? = some k) (hn' : xs[n']? = some k) :
    n = n' := by
  induction xs generalizing n n' with
  | nil => simp at hn
  | cons x xs ih =>
    -- a block that is met again later on would be counted twice
    have hrest : ∀ n, xs[n]? = some k → 1 ≤ xs.count k :=
      fun n hn => List.count_pos_iff.2 (List.mem_of_getElem? hn)
    rw [List.count_cons] at hcount
    cases n with
    | zero =>
      cases n' with
      | zero => rfl
      | succ n' =>
        have hx : x = k := by simpa using hn
        have hmany := hrest n' (by simpa using hn')
        simp only [hx, beq_self_eq_true, if_true] at hcount
        omega
    | succ n =>
      cases n' with
      | zero =>
        have hx : x = k := by simpa using hn'
        have hmany := hrest n (by simpa using hn)
        simp only [hx, beq_self_eq_true, if_true] at hcount
        omega
      | succ n' => exact congrArg (· + 1) (ih (by omega) (by simpa using hn) (by simpa using hn'))

/-- A block that leads nowhere else has one edge. -/
theorem Resolvable.edge_unique (hb : Resolvable b) (hone : (b.block source).successors.length ≤ 1)
    {l' : BlockId} {position' : Nat} (he : (b.block l).predecessors[position]? = some source)
    (he' : (b.block l').predecessors[position']? = some source) :
    l' = l ∧ position' = position := by
  have hcount : ∀ x, (b.block x).predecessors.count source ≤ 1 := by
    intro x
    rw [← hb.edges]
    exact List.count_le_length.trans hone
  have hsuccessor : ∀ x (n : Nat), (b.block x).predecessors[n]? = some source →
      x ∈ (b.block source).successors := by
    intro x n hn
    rw [← List.count_pos_iff, hb.edges, List.count_pos_iff]
    exact List.mem_of_getElem? hn
  have hl : l' = l := by
    have hmem := hsuccessor l position he
    have hmem' := hsuccessor l' position' he'
    match hs : (b.block source).successors, hone with
    | [], _ => simp [hs] at hmem
    | [x], _ => simp_all
    | _ :: _ :: _, hone => simp at hone
  subst hl
  exact ⟨rfl, position_unique (hcount l') he' he⟩

/-- Where the operands of phis are has not changed. -/
theorem onEdge_grows (hb : Resolvable b) (hg : b.Grows b') (a : Locals) (l : BlockId)
    (position : Nat) :
    onEdge b' a (b.block l).phis position = onEdge b a (b.block l).phis position := by
  have hoperands : ∀ p ∈ (b.block l).phis, b'.operands p = b.operands p := by
    intro p hp
    obtain ⟨k, ho⟩ := origin_of_isPhi (hb.phis l p hp)
    rw [Body.operands, Value.operands, hg.phi p k _ ho]
  have hcandidates :
      ((b.block l).phis.filterMap fun p => (b'.operands p)[position]?.map (PhiMove.mk p)) =
      (b.block l).phis.filterMap fun p => (b.operands p)[position]?.map (PhiMove.mk p) :=
    List.filterMap_congr fun p hp => by rw [hoperands p hp]
  unfold onEdge
  rw [hcandidates]
  refine List.filter_congr fun m hm => ?_
  obtain ⟨p, hp, hm⟩ := List.mem_filterMap.1 hm
  obtain ⟨v, hv, rfl⟩ := Option.map_eq_some_iff.1 hm
  obtain ⟨hmem, hstack⟩ := hb.operands l p hp v (List.mem_of_getElem? hv)
  unfold isNeeded isConstant
  rw [hg.definition? hb.closed hmem hstack]

/-- Which moves the blocks have got for the edges that have been served. A block with moves leads
nowhere else, so that they are those of one edge. -/
structure Resolved (c : StackCoding) (b : Body) (a : Locals) (served : BlockId → Nat → Prop)
    (moves : BlockId → List PhiMove) (start : Nat) (m : Lowering) : Prop where
  grows : b.Grows m.body
  closed : m.body.Closed
  blocks : ∀ k, HasMoves c b m.body k (moves k)
  edge : ∀ l position source, served l position →
    (b.block l).predecessors[position]? = some source →
    moves source = onEdge b a (b.block l).phis position
  single : ∀ k, moves k ≠ [] → (b.block k).successors.length ≤ 1 ∧
    ∃ l position, served l position ∧ (b.block l).predecessors[position]? = some k
  maxStack : ∀ h, m.maxStack ≤ h ↔ start ≤ h ∧ ∀ k, b.widthOf ((moves k).map PhiMove.operand) ≤ h

theorem Resolved.congr {served' : BlockId → Nat → Prop} (h : Resolved c b a served moves start m)
    (hserved : ∀ l position source, (b.block l).predecessors[position]? = some source →
      (served l position ↔ served' l position)) :
    Resolved c b a served' moves start m := by
  refine ⟨h.grows, h.closed, h.blocks, fun l position source hs he => h.edge l position source
    ((hserved l position source he).2 hs) he, fun k hk => ?_, h.maxStack⟩
  obtain ⟨hone, l, position, hs, he⟩ := h.single k hk
  exact ⟨hone, l, position, (hserved l position k he).1 hs, he⟩

/-- A block has no moves as long as one of its edges has not been served. -/
theorem Resolved.unserved (hb : Resolvable b) (h : Resolved c b a served moves start m)
    (he : (b.block l).predecessors[position]? = some source) (hnot : ¬ served l position) :
    moves source = [] := by
  by_contra hne
  obtain ⟨hone, l', position', hs, he'⟩ := h.single source hne
  obtain ⟨rfl, rfl⟩ := hb.edge_unique hone he he'
  exact hnot hs

/-- Edges that need no moves count as served. -/
theorem Resolved.unmoved (hb : Resolvable b) (h : Resolved c b a served moves start m)
    {new : BlockId → Nat → Prop}
    (hnew : ∀ l position, new l position → ¬ served l position ∧
      onEdge b a (b.block l).phis position = []) :
    Resolved c b a (fun l position => served l position ∨ new l position) moves start m := by
  refine ⟨h.grows, h.closed, h.blocks, fun l position source hs he => ?_,
    fun k hk => ?_, h.maxStack⟩
  · rcases hs with hs | hs
    · exact h.edge l position source hs he
    · obtain ⟨hnot, hnil⟩ := hnew l position hs
      rw [hnil]
      exact h.unserved hb he hnot
  · obtain ⟨hone, l, position, hs, he⟩ := h.single k hk
    exact ⟨hone, l, position, Or.inl hs, he⟩

theorem Resolved.regrow (h : Resolved c b a served moves start m) (hg : m.body.Grows f)
    (hc : f.Closed) (hlists : ∀ k, (f.block k).instructions = (m.body.block k).instructions) :
    Resolved c b a served moves start { m with body := f } :=
  ⟨h.grows.trans hg, hc, fun k => (h.blocks k).grows hg (hlists k), h.edge, h.single, h.maxStack⟩

theorem movable_of_mem_onEdge (hb : Resolvable b) {n : PhiMove}
    (hn : n ∈ onEdge b a (b.block l).phis position) : Movable b n := by
  obtain ⟨⟨hp, hv⟩, -⟩ := mem_onEdge.1 hn
  obtain ⟨hmem, hstack⟩ := hb.operands l n.phi hp n.operand (List.mem_of_getElem? hv)
  exact ⟨hmem, hstack, hb.phis l n.phi hp⟩

theorem onEdge_congr (h : a.slot? = a'.slot?) (b : Body) (phis : List ValueId) (position : Nat) :
    onEdge b a phis position = onEdge b a' phis position := by
  unfold onEdge
  refine congrArg (List.filter · _) (funext fun m => ?_)
  unfold isNeeded
  rw [h]

/-- Moves are added at the end of a block that leads nowhere else. -/
theorem Resolved.insert (hb : Resolvable b) (h : Resolved c b a served moves start m)
    (he : (b.block l).predecessors[position]? = some source) (hnot : ¬ served l position)
    (hone : (b.block source).successors.length ≤ 1) :
    Resolved c b a (fun l' n => served l' n ∨ l' = l ∧ n = position)
      (Function.update moves source (onEdge b a (b.block l).phis position)) start
      (PhiMoves.insert c m source (onEdge b a (b.block l).phis position)) := by
  have hsource : source ∈ b.blocks := hb.closed.predecessors l source (List.mem_of_getElem? he)
  have hnil := h.unserved hb he hnot
  have hmovable : ∀ n ∈ onEdge b a (b.block l).phis position, Movable b n :=
    fun n hn => movable_of_mem_onEdge hb hn
  have hinserted := insert_inserted (c := c) hb.closed h.grows h.closed hsource
    (hnil ▸ h.blocks source).instructions hmovable
  generalize hms : onEdge b a (b.block l).phis position = ms at hinserted
  refine ⟨h.grows.trans hinserted.grows, hinserted.closed, fun k => ?blocks,
    fun l' n k hs he' => ?edge, fun k hk => ?single, fun height => ?maxStack⟩
  case blocks =>
    by_cases hk : k = source
    · subst hk
      rw [Function.update_self]
      exact hinserted.moves
    · rw [Function.update_of_ne hk]
      exact (h.blocks k).grows hinserted.grows (hinserted.others k hk)
  case edge =>
    by_cases hk : k = source
    · subst hk
      obtain ⟨rfl, rfl⟩ := hb.edge_unique hone he he'
      rw [Function.update_self, hms]
    · rw [Function.update_of_ne hk]
      rcases hs with hs | ⟨rfl, rfl⟩
      · exact h.edge l' n k hs he'
      · exact absurd (Option.some.inj (he'.symm.trans he)) hk
  case single =>
    by_cases hks : k = source
    · exact hks ▸ ⟨hone, l, position, Or.inr ⟨rfl, rfl⟩, he⟩
    · rw [Function.update_of_ne hks] at hk
      obtain ⟨hone', l', n, hs, he'⟩ := h.single k hk
      exact ⟨hone', l', n, Or.inl hs, he'⟩
  case maxStack =>
    -- the block had no moves before, so nothing that counted is replaced
    rw [hinserted.maxStack, Nat.max_le, h.maxStack, and_assoc]
    refine and_congr_right fun _ => ⟨fun ⟨hold, hnew⟩ k => ?_, fun hall => ⟨fun k => ?_, ?_⟩⟩
    · by_cases hk : k = source
      · rw [hk, Function.update_self]
        exact hnew
      · rw [Function.update_of_ne hk]
        exact hold k
    · by_cases hk : k = source
      · rw [hk, hnil]
        exact Nat.zero_le _
      · have hk' := hall k
        rwa [Function.update_of_ne hk] at hk'
    · have hs := hall source
      rwa [Function.update_self] at hs

/-- Serving an edge. -/
theorem insertOnEdge_resolved (hb : Resolvable b) (hslots : a'.slot? = a.slot?)
    (h : Resolved c b a served moves start m)
    (he : (b.block l).predecessors[position]? = some source) (hnot : ¬ served l position)
    (hstep : insertOnEdge c a' l (b.block l).phis m (source, position) = (m', none)) :
    ∃ moves', Resolved c b a (fun l' n => served l' n ∨ l' = l ∧ n = position) moves' start m' := by
  have hedge : onEdge m.body a' (b.block l).phis position = onEdge b a (b.block l).phis position :=
    (onEdge_grows hb h.grows a' l position).trans (onEdge_congr hslots ..)
  have hmoving := PhiMoves.moves c a' l (b.block l).phis m source position
  rw [hstep] at hmoving
  cases hmoving with
  | unmoved unneeded =>
    refine ⟨moves, h.unmoved hb fun l' n hnew => ?_⟩
    obtain ⟨rfl, rfl⟩ := hnew
    exact ⟨hnot, hedge ▸ unneeded⟩
  | moved _ single =>
    rw [h.grows.successors] at single
    rw [hedge]
    exact ⟨_, h.insert hb he hnot single⟩

theorem insertOnEdges_resolved (hb : Resolvable b) (hslots : a'.slot? = a.slot?)
    {edges : List (BlockId × Nat)} (hnodup : (edges.map Prod.snd).Nodup)
    (hedges : ∀ x ∈ edges, (b.block l).predecessors[x.2]? = some x.1)
    (h : Resolved c b a served moves start m) (hnot : ∀ n, ¬ served l n)
    (hrun : attemptAll (insertOnEdge c a' l (b.block l).phis) m edges = (m', none)) :
    ∃ moves', Resolved c b a (fun l' n => served l' n ∨ l' = l ∧ n ∈ edges.map Prod.snd)
      moves' start m' := by
  -- what is left has not been served
  have hend := attemptAll_ok (motive := fun rest (m : Lowering) => (rest.map Prod.snd).Nodup ∧
    (∀ x ∈ rest, x ∈ edges) ∧ ∃ moves',
    Resolved c b a (fun l' n => served l' n ∨ l' = l ∧ n ∈ edges.map Prod.snd ∧
    n ∉ rest.map Prod.snd) moves' start m) (fun x rest m₁ m₂ hstep hm => ?step) hrun
    ⟨hnodup, fun _ hx => hx, moves, h.congr fun l' n _ _ => by simp⟩
  case step =>
    obtain ⟨source, n⟩ := x
    obtain ⟨hnodup, hrest, moves₁, h₁⟩ := hm
    obtain ⟨hn, hnodup'⟩ := List.nodup_cons.1 hnodup
    obtain ⟨hx, hrest'⟩ := List.forall_mem_cons.1 hrest
    obtain ⟨moves₂, h₂⟩ := insertOnEdge_resolved hb hslots h₁ (hedges _ hx) (by simp [hnot n]) hstep
    refine ⟨hnodup', hrest', moves₂, h₂.congr fun l' n' _ _ => ?_⟩
    have hmem : n ∈ edges.map Prod.snd := List.mem_map.2 ⟨(source, n), hx, rfl⟩
    simp only [List.map_cons, List.mem_cons, not_or]
    constructor
    · rintro ((hs | ⟨rfl, hn', -, hrest⟩) | ⟨rfl, rfl⟩)
      · exact Or.inl hs
      · exact Or.inr ⟨rfl, hn', hrest⟩
      · exact Or.inr ⟨rfl, hmem, hn⟩
    · rintro (hs | ⟨rfl, hn', hrest⟩)
      · exact Or.inl (Or.inl hs)
      · by_cases hnn : n' = n
        · exact Or.inr ⟨rfl, hnn⟩
        · exact Or.inl (Or.inr ⟨rfl, hn', hnn, hrest⟩)
  obtain ⟨-, -, moves', h'⟩ := hend
  exact ⟨moves', h'.congr fun l' n _ _ => by simp⟩

theorem blocks_detach (b : Body) (p : ValueId) : (PhiMoves.detach b p).blocks = b.blocks :=
  List.foldlRecOn (motive := fun b' : Body => b'.blocks = b.blocks) (b.operands p) _ rfl
    fun _ h _ _ => h

/-- Serving all edges into a block. -/
theorem resolveBlock_resolved (hb : Resolvable b) {s s' : Lowering × Locals}
    (hslots : s.2.slot? = a.slot?) (h : Resolved c b a served moves start s.1)
    (hnot : ∀ n, ¬ served l n) (hstep : resolveBlock c s l = (s', none)) :
    s'.2.slot? = a.slot? ∧ ∃ moves',
      Resolved c b a (fun l' n => served l' n ∨ l' = l) moves' start s'.1 := by
  obtain ⟨m, a₁⟩ := s
  simp only at hslots h
  have hresolves := resolves c m a₁ l
  rw [hstep] at hresolves
  cases hresolves with
  -- without phis there are no moves on the edges to the block
  | unphied hempty =>
    rw [h.grows.phis] at hempty
    refine ⟨hslots, moves, h.unmoved hb fun l' n hl' => ?_⟩
    rw [hl', hempty]
    exact ⟨hnot n, rfl⟩
  | @resolved m₁ _ _ hrun =>
    rw [h.grows.phis, h.grows.predecessors] at hrun
    rw [h.grows.phis]
    refine ⟨funext fun v => (slot?_foldl_addLive ..).trans (congrFun hslots v), ?_⟩
    -- each edge is served at its own position; to detach the phis changes no code
    obtain ⟨moves', h'⟩ := insertOnEdges_resolved hb hslots
      (by rw [List.zipIdx_map_snd]; exact List.nodup_range')
      (fun x hx => List.mem_zipIdx_iff_getElem?.1 hx) h hnot hrun
    refine ⟨moves', Resolved.regrow (f := (b.block l).phis.foldl PhiMoves.detach m₁.body)
      (h'.congr fun l' n source he => ?edges) ?grows ?closed ?lists⟩
    case edges =>
      refine or_congr_right ⟨And.left, fun hl => ⟨hl, ?_⟩⟩
      rw [hl] at he
      exact List.mem_map.2 ⟨(source, n), List.mem_zipIdx_iff_getElem?.2 he, rfl⟩
    case grows =>
      exact List.foldlRecOn _ _ (Grows.refl _) fun b' hg p _ => hg.trans (grows_detach b' p)
    case closed =>
      exact List.foldlRecOn _ _ h'.closed fun _ hc p _ => closed_detach hc p
    case lists =>
      intro k
      have hblocks : ((b.block l).phis.foldl PhiMoves.detach m₁.body).blocks = m₁.body.blocks :=
        List.foldlRecOn (motive := fun b' : Body => b'.blocks = m₁.body.blocks) _ _ rfl
          fun b' hb' p _ => (blocks_detach b' p).trans hb'
      rw [Body.block, hblocks]
      rfl

/-- **Every edge has its moves in the end.** -/
theorem insertPhiMoves_resolved (hb : Resolvable m.body) {s : Lowering × Locals}
    (hrun : c.insertPhiMoves m a = (s, none)) :
    s.2.slot? = a.slot? ∧ ∃ moves, Resolved c m.body a (fun _ _ => True) moves m.maxStack s.1 := by
  have hstart : Resolved c m.body a (fun _ _ => False) (fun _ => []) m.maxStack m :=
    ⟨.refl _, hb.closed, fun _ => hasMoves_nil rfl, fun _ _ _ hs => hs.elim,
      fun _ hne => absurd rfl hne, fun h => by simp⟩
  -- the blocks that have been resolved are those that are not left
  have hend := attemptAll_ok
    (motive := fun ks (s : Lowering × Locals) =>
      ks.Nodup ∧ s.2.slot? = a.slot? ∧ ∃ moves,
        Resolved c m.body a (fun l _ => l ∉ ks) moves m.maxStack s.1)
    (fun k ks s s' hstep hs => ?step) hrun
      ⟨Table.nodup_indices _, rfl, _, hstart.congr fun l n source he => ?start⟩
  case step =>
    obtain ⟨hnodup, hslots, moves, h⟩ := hs
    obtain ⟨hk, hnodup'⟩ := List.nodup_cons.1 hnodup
    obtain ⟨hslots', moves', h'⟩ :=
      resolveBlock_resolved hb hslots h (fun _ hn => hn List.mem_cons_self) hstep
    refine ⟨hnodup', hslots', moves', h'.congr fun l _ _ _ => ?_⟩
    rw [List.mem_cons, not_or]
    by_cases hl : l = k
    · simp [hl, hk]
    · simp [hl]
  case start =>
    refine iff_of_false id fun hnot => hnot (Table.mem_indices.2 ?_)
    by_contra hl
    rw [block_of_notMem hl] at he
    have hnone : ([] : List BlockId)[n]? = some source := he
    simp at hnone
  obtain ⟨-, hslots, moves, h⟩ := hend
  exact ⟨hslots, moves, h.congr fun _ _ _ _ => by simp⟩

end PhiMoves

end JvmLowering
