import JvmLowering.Proofs.Checked.Access
import JvmLowering.Proofs.Lowering.Totality

/-!
# Stack code with checks

Writing stack code, with a check of every index that is read or changed. The instructions of a body
that is built refer to what is there, and so do those that are added, so all checks pass.

* `Checked.pushOperand`, `Checked.storeOutput`: pushing an input, popping an output;
* `Checked.convert_eq`: the checks for an instruction pass if nothing dangles;
* `Checked.insertLoadsAndStores_eq`: those for all instructions do.
-/

namespace JvmLowering

namespace Checked

/-! ### Stack code -/

/-- Makes an instruction and places it. -/
def emit (e : Emitter) (insn : Instruction) : Option Emitter :=
  (pushInstruction e.body insn).map fun (i, body) => Emitter.place { e with body } i

/-- A new stack entry that stands for a value, which has to be there. -/
def pushEntry (e : Emitter) (v : ValueId) (type : StackType ClassId) : Option (ValueId × Emitter) :=
  (value e.body v).map fun x =>
    let (height, stack) := e.stack.push type
    let (entry, body) := e.body.pushStackValue ⟨height, type⟩ x.type
    (entry, { e with body, stack, maxStack := max e.maxStack stack.extent })

/-- What the stack holds when a value is pushed. -/
def stackType (c : StackCoding) (b : Body) (v : ValueId) : Option (StackType ClassId) :=
  (value b v).map fun x =>
    let seen? :=
      if c.settings.preciseStack && x.type.isReference then
        c.verifier?.bind fun t => (t.typeOf v).toOption
      else none
    match x.origin with
    | .stack slot _ => slot.type
    | _ =>
      match seen? with
      | some (.object r) => .object r
      | some .null => .null
      | _ => .ofDeclared x.type

/-- The constant to push in place of a value, if there is one. -/
def constant? (c : StackCoding) (b : Body) (v : ValueId) : Option (Option Constant) := do
  let x ← value b v
  match ← definition b v with
  | some ⟨.constant constant, _, _, _, _⟩ =>
    return if c.settings.rematerialize || x.isStack then some constant else none
  | _ => return none

def pushOperand (c : StackCoding) (k : BlockId) (line : Option UInt32) (e : Emitter) (v : ValueId) :
    Option (ValueId × Emitter) := do
  let (entry, e) ← pushEntry e v (← stackType c e.body v)
  match ← constant? c e.body v with
  | some constant =>
    let e ← emit (e.report (.constantPushed constant v))
      ⟨.constant constant, [], some entry, k, line⟩
    return (entry, e)
  | none =>
    let e ← emit (e.report (.loaded v)) ⟨.load, [v], some entry, k, line⟩
    return (entry, e)

def loadInput (c : StackCoding) (k : BlockId) (i : InsnId) (line : Option UInt32) (e : Emitter)
    (input : ValueId × Nat) : Option (Emitter × Option Error) := do
  let (v, position) := input
  let x ← value e.body v
  let constant ← isConstant e.body v
  if x.isStack && !constant then return (e, some (.unexpectedStackValue i v))
  else
    let (entry, e) ← pushOperand c k line e v
    return ({ e with body := ← replaceInput e.body i position entry }, none)

/-- Takes an output off the stack: into its local variable if anything reads it. -/
def takeOutput (k : BlockId) (i : InsnId) (line : Option UInt32) (e : Emitter) (v entry : ValueId)
    (unread : Bool) : Option Emitter :=
  if unread then (emit e ⟨.pop, [entry], none, k, line⟩).map (·.report (.popped v i))
  else (emit e ⟨.store, [entry], some v, k, line⟩).map (·.report (.stored v i))

def storeOutput (c : StackCoding) (k : BlockId) (i : InsnId) (line : Option UInt32) (e : Emitter)
    (v : ValueId) : Option Emitter := do
  let (entry, e) ← pushEntry e v (← stackType c e.body v)
  let e := ({ e with body := ← replaceOutput e.body i entry } : Emitter).place i
  let e ← takeOutput k i line e v entry (← value e.body v).users.isEmpty
  return e.popEntry

def isDropped (c : StackCoding) (b : Body) (insn : Instruction) : Option Bool :=
  match insn.output with
  | none => some (insn.operation.isConstant && c.settings.rematerialize)
  | some v => (value b v).map fun x =>
      insn.operation.isConstant && (c.settings.rematerialize || x.isStack)

/-- What is left of an instruction to convert when its inputs are on the stack. -/
def convertOutput (c : StackCoding) (k : BlockId) (i : InsnId) (insn : Instruction) (e : Emitter) :
    Option (Emitter × Option Error) :=
  match insn.output with
  | none => some (e.place i, none)
  | some v => do
    if (← value e.body v).isStack then return (e, some (.unexpectedStackValue i v))
    else return (← storeOutput c k i insn.line e v, none)

def convert (c : StackCoding) (k : BlockId) (e : Emitter) (i : InsnId) :
    Option (Emitter × Option Error) := do
  let insn ← instruction e.body i
  let dropped ← isDropped c e.body insn
  if insn.operation.isArgument then return (e.place i, none)
  else if dropped then return (e.report (.constantDropped i), none)
  else
    match ← attemptAll (loadInput c k i insn.line) e insn.inputs.zipIdx with
    | (e, some error) => return (e, some error)
    | (e, none) => convertOutput c k i insn (e.popEntries insn.inputs)

def convertBlock (c : StackCoding) (l : Lowering) (k : BlockId) :
    Option (Lowering × Option Error) := do
  let instructions := (← block l.body k).instructions
  let start : Emitter := { l with body := ← setInstructions l.body k [] }
  match ← attemptAll (convert c k) start instructions with
  | (e, some error) => return (e.toLowering, some error)
  | (e, none) =>
    return ({ e.toLowering with body := ← setInstructions e.body k e.emitted }, none)

def insertLoadsAndStores (c : StackCoding) (l : Lowering) : Option (Lowering × Option Error) := do
  match ← attemptAll (convertBlock c) l l.body.blocks.indices with
  | (l, some error) => return (l, some error)
  | (l, none) =>
    return ({ l with reports := .stackMeasured l.body.method l.maxStack :: l.reports }, none)

/-! ### Its checks -/

open Body Emitter

variable {c : StackCoding} {b f : Body} {e e' : Emitter} {i : InsnId} {v entry : ValueId}
  {k : BlockId} {insn : Instruction}

theorem emit_eq (hinputs : ∀ v ∈ insn.inputs, v ∈ e.body.values)
    (houtput : ∀ v, insn.output = some v → v ∈ e.body.values)
    (hblock : insn.block ∈ e.body.blocks) :
    emit e insn = some (e.emit insn) := by
  unfold emit
  rw [pushInstruction_eq hinputs houtput hblock]
  rfl

theorem pushEntry_eq (hv : v ∈ e.body.values) (type : StackType ClassId) :
    pushEntry e v type = some (e.pushEntry v type) := by
  unfold pushEntry
  rw [value_eq hv]
  rfl

theorem stackType_eq (c : StackCoding) (hv : v ∈ b.values) :
    stackType c b v = some (c.stackType b v) := by
  unfold stackType
  rw [value_eq hv]
  rfl

theorem constant?_eq (c : StackCoding) (hc : b.Closed) (hv : v ∈ b.values) :
    constant? c b v = some (c.constant? b v) := by
  unfold constant? StackCoding.constant?
  rw [value_eq hv, definition_eq hc hv, Option.bind_eq_bind, Option.bind_some]
  cases b.definition? v with
  | none => rfl
  | some insn =>
    obtain ⟨operation, inputs, output, block, line⟩ := insn
    cases operation <;> rfl

theorem pushOperand_eq (c : StackCoding) (line : Option UInt32) (hc : e.body.Closed)
    (hv : v ∈ e.body.values) (hk : k ∈ e.body.blocks) :
    pushOperand c k line e v = some (c.pushOperand k line e v) := by
  obtain ⟨hwrites, hentry, -⟩ := writes_pushEntry .first (fun _ => True) e v (c.stackType e.body v)
  have hc' := hwrites.changes.closed hc
  have hv' := hwrites.changes.retains.mem_values v hv
  have hk' := (hwrites.changes.retains.mem_blocks k).2 hk
  unfold pushOperand StackCoding.pushOperand
  simp only [stackType_eq c hv, pushEntry_eq hv, Option.bind_eq_bind, Option.bind_some]
  generalize e.pushEntry v (c.stackType e.body v) = pushed at hc' hv' hk' hentry ⊢
  obtain ⟨entry, p⟩ := pushed
  simp only at hc' hv' hk' hentry ⊢
  rw [constant?_eq c hc' hv', Option.bind_some]
  have houtput : ∀ u, some entry = some u → u ∈ p.body.values := by
    rintro u ⟨⟩
    exact hentry
  cases c.constant? p.body v with
  | some constant =>
    simp only
    rw [emit_eq (e := p.report _) (by simp) houtput hk']
    rfl
  | none =>
    simp only
    rw [emit_eq (e := p.report _) (fun u hu => List.mem_singleton.1 hu ▸ hv') houtput hk']
    rfl

/-- An emitter on which the inputs that are left can be pushed. -/
structure Loadable (f : Body) (i : InsnId) (inputs : List (ValueId × Nat)) (e : Emitter) :
    Prop where
  retains : f.Retains e.body
  closed : e.body.Closed
  length : (e.body.instruction i).inputs.length = (f.instruction i).inputs.length
  inputs : ∀ x ∈ inputs, x.1 ∈ f.values ∧ x.2 < (f.instruction i).inputs.length

theorem loadable_start (hc : e.body.Closed) (hi : i ∈ e.body.instructions) :
    Loadable e.body i (e.body.instruction i).inputs.zipIdx e := by
  refine ⟨.refl _, hc, rfl, fun x hx => ?_⟩
  rw [List.mem_zipIdx_iff_getElem?] at hx
  exact ⟨hc.inputs i hi x.1 (List.mem_of_getElem? hx), (List.getElem?_eq_some_iff.1 hx).1⟩

theorem Loadable.loadInput_eq {x : ValueId × Nat} {inputs : List (ValueId × Nat)}
    (h : Loadable f i (x :: inputs) e) (hi : i ∈ f.instructions) (hk : k ∈ f.blocks)
    (line : Option UInt32) :
    loadInput c k i line e x = some (c.loadInput k i line e x) ∧
      ∀ e', c.loadInput k i line e x = (e', none) → Loadable f i inputs e' := by
  obtain ⟨v, n⟩ := x
  obtain ⟨⟨hv, hn⟩, hinputs⟩ := List.forall_mem_cons.1 h.inputs
  have hv' := h.retains.mem_values v hv
  have hi' := h.retains.mem_instructions i hi
  have hk' := (h.retains.mem_blocks k).2 hk
  obtain ⟨hpushed, hentry⟩ :=
    StackCoding.pushOperand_writes c e.body.instructions.next (fun _ => True) line hv' hk'
  have hr := hpushed.changes.retains
  have hclosed := hpushed.changes.closed h.closed
  have hip := hr.mem_instructions i hi'
  have hinsn := hpushed.changes.instruction hi' fun heq => Table.next_notMem _ (heq ▸ hi')
  -- to push the operand neither moves the instruction nor changes how many inputs it has
  have hreplaced : replaceInput (c.pushOperand k line e v).2.body i n (c.pushOperand k line e v).1 =
      some _ := replaceInput_eq hclosed hip (by rwa [hinsn, h.length]) hentry
  have hloads := c.loads k i line e v n
  generalize houtcome : c.loadInput k i line e (v, n) = outcome at hloads ⊢
  unfold loadInput
  simp only [value_eq hv', isConstant_eq h.closed hv', pushOperand_eq c line h.closed hv' hk',
    hreplaced, Option.bind_eq_bind, Option.bind_some]
  cases hloads with
  -- what is loaded may be refused, but all that is looked up is there
  | refused onStack =>
    rw [if_pos onStack]
    exact ⟨rfl, fun _ he' => by simp at he'⟩
  | pushed free =>
    rw [if_neg (Bool.eq_false_iff.1 free)]
    refine ⟨rfl, ?_⟩
    rintro _ ⟨⟩
    have hchange : Change i (fun _ => True) (c.pushOperand k line e v).2.body _ :=
      .input (n := n) hip hentry
    refine ⟨(h.retains.trans hr).trans hchange.retains, hchange.closed hclosed, ?_, hinputs⟩
    show ((Body.replaceInput _ i n _).instruction i).inputs.length = _
    rw [instruction_replaceInput _ _ _ hip, if_pos rfl]
    exact List.length_set.trans ((congrArg (·.inputs.length) hinsn).trans h.length)

theorem storeOutput_eq (c : StackCoding) (line : Option UInt32) (hv : v ∈ e.body.values)
    (hi : i ∈ e.body.instructions) (hk : k ∈ e.body.blocks) :
    storeOutput c k i line e v = some (c.storeOutput k i line e v) := by
  obtain ⟨hwrites, hentry, hstack⟩ := writes_pushEntry i (fun _ => True) e v (c.stackType e.body v)
  have hi' := hwrites.changes.retains.mem_instructions i hi
  have hv' := hwrites.changes.retains.mem_values v hv
  have hk' := (hwrites.changes.retains.mem_blocks k).2 hk
  unfold storeOutput StackCoding.storeOutput
  simp only [stackType_eq c hv, pushEntry_eq hv, Option.bind_eq_bind, Option.bind_some]
  generalize e.pushEntry v (c.stackType e.body v) = pushed at hi' hv' hk' hentry hstack ⊢
  obtain ⟨entry, p⟩ := pushed
  simp only at hi' hv' hk' hentry hstack ⊢
  have hchange : Change i (fun _ => True) p.body (p.body.replaceOutput i entry) :=
    .output hi' hentry hstack
  obtain ⟨placed, hplaced⟩ :
    ∃ placed, ({ p with body := p.body.replaceOutput i entry } : Emitter).place i = placed :=
    ⟨_, rfl⟩
  have hvalues : ∀ u ∈ p.body.values, u ∈ placed.body.values := hplaced ▸ hchange.retains.mem_values
  have hblock : k ∈ placed.body.blocks := hplaced ▸ (hchange.retains.mem_blocks k).2 hk'
  have hinputs : ∀ u ∈ [entry], u ∈ placed.body.values :=
    fun u hu => List.mem_singleton.1 hu ▸ hvalues entry hentry
  simp only [replaceOutput_eq hi' hentry, Option.bind_some, hplaced, value_eq (hvalues v hv')]
  unfold takeOutput
  split
  · rw [emit_eq hinputs (fun u hu => by simp at hu) hblock]
    rfl
  · rw [emit_eq hinputs (fun u hu => Option.some.inj hu ▸ hvalues v hv') hblock]
    rfl

theorem isDropped_eq (c : StackCoding) (houtput : ∀ v, insn.output = some v → v ∈ b.values) :
    isDropped c b insn = some (c.isDropped b insn) := by
  unfold isDropped StackCoding.isDropped
  cases hout : insn.output with
  | none => simp
  | some v =>
    simp only [value_eq (houtput v hout)]
    rfl

theorem convertOutput_eq (c : StackCoding) (houtput : ∀ v, insn.output = some v → v ∈ e.body.values)
    (hi : i ∈ e.body.instructions) (hk : k ∈ e.body.blocks) :
    convertOutput c k i insn e = some (match insn.output with
      | none => (e.place i, none)
      | some v =>
        if (e.body.value v).isStack then (e, some (.unexpectedStackValue i v))
        else (c.storeOutput k i insn.line e v, none)) := by
  unfold convertOutput
  cases hout : insn.output with
  | none => rfl
  | some v =>
    have hv := houtput v hout
    simp only [value_eq hv, storeOutput_eq c insn.line hv hi hk, Option.bind_eq_bind,
      Option.bind_some]
    split <;> rfl

/-- The checks for an instruction pass if nothing dangles. -/
theorem convert_eq (c : StackCoding) (hc : e.body.Closed) (hi : i ∈ e.body.instructions)
    (hk : k ∈ e.body.blocks) : convert c k e i = some (c.convert k e i) := by
  have hload : attemptAll (loadInput c k i (e.body.instruction i).line) e
      (e.body.instruction i).inputs.zipIdx = some (JvmLowering.attemptAll
        (c.loadInput k i (e.body.instruction i).line) e (e.body.instruction i).inputs.zipIdx) :=
    attemptAll_eq (P := Loadable e.body i) (fun _ _ _ h => h.loadInput_eq hi hk _)
      (loadable_start hc hi)
  -- the body after the inputs have been loaded has all that was there before
  have hloaded : ∀ loaded, JvmLowering.attemptAll (c.loadInput k i (e.body.instruction i).line) e
      (e.body.instruction i).inputs.zipIdx = (loaded, none) → Loadable e.body i [] loaded :=
    fun loaded hrun => attemptAll_ok (motive := Loadable e.body i)
      (fun x inputs e' e'' hstep h => (h.loadInput_eq hi hk _).2 e'' hstep) hrun
      (loadable_start hc hi)
  unfold convert StackCoding.convert
  simp only [instruction_eq hi, isDropped_eq c (hc.output i hi), hload, Option.bind_eq_bind,
    Option.bind_some]
  split
  · rfl
  split
  · rfl
  rcases hrun : JvmLowering.attemptAll (c.loadInput k i (e.body.instruction i).line) e
      (e.body.instruction i).inputs.zipIdx with ⟨loaded, - | error⟩
  · have hr := (hloaded loaded hrun).retains
    have hbody := body_popEntries loaded (e.body.instruction i).inputs
    exact convertOutput_eq c (fun v hv => hbody ▸ hr.mem_values v (hc.output i hi v hv))
      (hbody ▸ hr.mem_instructions i hi) (hbody ▸ (hr.mem_blocks k).2 hk)
  · rfl

open StackCoding in
theorem convertBlock_eq (hb : b.WellFormed) {ks : List BlockId} {m : Lowering}
    (h : Remaining c b (k :: ks) m.body) : convertBlock c m k = some (c.convertBlock m k) := by
  have hkb := h.mem_blocks k List.mem_cons_self
  have hkm := (h.halfway.retains.mem_blocks k).2 hkb
  obtain ⟨hstart, his⟩ := h.takeOut hb
  have hconverting : attemptAll (convert c k) { m with body := m.body.setInstructions k [] }
      (b.block k).instructions = some (JvmLowering.attemptAll (c.convert k)
        { m with body := m.body.setInstructions k [] } (b.block k).instructions) := by
    -- instructions still to be converted are those of the body
    refine attemptAll_eq (P := fun is (e : Emitter) => ∃ converted, Halfway c b converted e.body ∧
      is.Nodup ∧ ∀ i ∈ is, i ∈ b.instructions ∧ ¬ converted i) (fun i is e h => ?_)
      ⟨_, hstart, hb.instructions_nodup k, his⟩
    obtain ⟨converted, h, hnodup, his⟩ := h
    obtain ⟨⟨hi, hnot⟩, his⟩ := List.forall_mem_cons.1 his
    obtain ⟨hiis, hnodup⟩ := List.nodup_cons.1 hnodup
    refine ⟨convert_eq c h.closed (h.retains.mem_instructions i hi)
      ((h.retains.mem_blocks k).2 hkb), fun e' he' => ?_⟩
    obtain ⟨e'', he'', -, h'⟩ := convert_total hb h hi hnot hkb
    obtain rfl := congrArg Prod.fst (he'.symm.trans he'')
    refine ⟨_, h', hnodup, fun j hj => ⟨(his j hj).1, not_or.2 ⟨(his j hj).2, ?_⟩⟩⟩
    rintro rfl
    exact hiis hj
  unfold convertBlock StackCoding.convertBlock
  simp only [block_eq hkm, setInstructions_eq hkm, h.instructions k List.mem_cons_self, hconverting,
    Option.bind_eq_bind, Option.bind_some]
  -- the list of the block is written back where all could be converted
  rcases hrun : JvmLowering.attemptAll (c.convert k) { m with body := m.body.setInstructions k [] }
      (b.block k).instructions with ⟨e, - | error⟩
  · obtain ⟨e', he', hhalfway, -⟩ :=
      convertAll_total (e := { m with body := m.body.setInstructions k [] }) hb hkb
        (hb.instructions_nodup k) his hstart fun _ hj => absurd hj List.not_mem_nil
    obtain rfl := congrArg Prod.fst (hrun.symm.trans he')
    simp only [setInstructions_eq ((hhalfway.retains.mem_blocks k).2 hkb), Option.bind_some]
    rfl
  · rfl

/-- The checks for all instructions of a body that is built pass. -/
theorem insertLoadsAndStores_eq (hb : b.WellFormed) (c : StackCoding) :
    insertLoadsAndStores c { body := b } = some (c.insertLoadsAndStores { body := b }) := by
  have hblocks : attemptAll (convertBlock c) { body := b } b.blocks.indices =
      some (JvmLowering.attemptAll c.convertBlock { body := b } b.blocks.indices) := by
    refine attemptAll_eq (P := fun ks (m : Lowering) => StackCoding.Remaining c b ks m.body)
      (fun k ks m h => ⟨convertBlock_eq hb h, fun m' hm' => ?_⟩) (StackCoding.remaining_start hb c)
    obtain ⟨m'', hm'', h'⟩ := StackCoding.convertBlock_total hb h
    obtain rfl := congrArg Prod.fst (hm'.symm.trans hm'')
    exact h'
  unfold insertLoadsAndStores StackCoding.insertLoadsAndStores
  simp only [hblocks, Option.bind_eq_bind, Option.bind_some]
  rcases JvmLowering.attemptAll _ _ _ with ⟨m, - | error⟩ <;> rfl

end Checked

end JvmLowering
