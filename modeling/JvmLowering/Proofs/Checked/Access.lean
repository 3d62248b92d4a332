import JvmLowering.Attempt
import JvmLowering.Proofs.Lowering.Rewriting

/-!
# Checked access

Reading outside a table of a body gives a default, and a change outside it is none. Here every index
is checked first: what reads or changes something that is not there has no result, and neither has
anything that uses it. Where nothing dangles, the checks make no difference. Classes and methods are
not looked up in a table by the program, which has them at hand, so their numbers are not checked.

* `Table.get?`, `Table.modify?`: the checks;
* `Checked.attemptAll_eq`, `Checked.foldlM_eq`, `Checked.mapM_eq`: steps whose checks pass;
* `Checked.pushInstruction`, `Checked.replaceInput` and others: changes of a body, with a lemma
  each.
-/

namespace JvmLowering

namespace Table

variable {k : Entity} {α : Type} {t : Table k α} {i : Index k}

/-- The thing numbered `i`, if it is there. -/
def get? (t : Table k α) (i : Index k) : Option α := t.items[i.num]?

/-- Changes the thing numbered `i`, if it is there. -/
def modify? (t : Table k α) (i : Index k) (f : α → α) : Option (Table k α) :=
  if i ∈ t then some (t.modify i f) else none

/-- There is a result exactly for what is there. -/
theorem get?_eq [Inhabited α] (t : Table k α) (i : Index k) :
    t.get? i = if i ∈ t then some (t.get i) else none := by
  split
  · rename_i hi
    have hlt : i.num < t.items.size := hi
    simp [get?, get, hlt]
  · rename_i hi
    exact Array.getElem?_eq_none (Nat.not_lt.1 hi)

theorem get?_of_mem [Inhabited α] (hi : i ∈ t) : t.get? i = some (t.get i) :=
  (get?_eq t i).trans (if_pos hi)

theorem modify?_of_mem (hi : i ∈ t) (f : α → α) : t.modify? i f = some (t.modify i f) := if_pos hi

end Table

namespace Checked

/-! ### Steps -/

section Steps

variable {σ α β ε : Type} {l : List α} {s : σ}

/-- Makes a step for each item of a list, up to the first that fails. -/
def attemptAll (step : σ → α → Option (σ × Option ε)) (s : σ) : List α → Option (σ × Option ε)
  | [] => some (s, none)
  | a :: as => do
    match ← step s a with
    | (s, none) => attemptAll step s as
    | (s, some e) => return (s, some e)

/-- The checks of all steps pass if those of the first do, and what it leaves is good for the
others. -/
theorem attemptAll_eq {checked : σ → α → Option (σ × Option ε)} {step : σ → α → σ × Option ε}
    {P : List α → σ → Prop}
    (hstep : ∀ a l s, P (a :: l) s → checked s a = some (step s a) ∧
      ∀ s', step s a = (s', none) → P l s') (hs : P l s) :
    attemptAll checked s l = some (JvmLowering.attemptAll step s l) := by
  induction l generalizing s with
  | nil => rfl
  | cons a l ih =>
    obtain ⟨hchecked, hnext⟩ := hstep a l s hs
    unfold attemptAll JvmLowering.attemptAll
    rw [hchecked]
    rcases hresult : step s a with ⟨s', - | e⟩
    · exact ih (hnext s' hresult)
    · rfl

theorem foldlM_eq {checked : σ → α → Option σ} {step : σ → α → σ} {P : σ → Prop}
    (hstep : ∀ s, P s → ∀ a ∈ l, checked s a = some (step s a) ∧ P (step s a)) (hs : P s) :
    l.foldlM checked s = some (l.foldl step s) := by
  induction l generalizing s with
  | nil => rfl
  | cons a l ih =>
    obtain ⟨hchecked, hnext⟩ := hstep s hs a List.mem_cons_self
    rw [List.foldlM_cons, hchecked]
    exact ih (fun s hs a ha => hstep s hs a (List.mem_cons_of_mem _ ha)) hnext

theorem mapM_eq {checked : α → Option β} {f : α → β} (h : ∀ a ∈ l, checked a = some (f a)) :
    l.mapM checked = some (l.map f) := by
  induction l with
  | nil => rfl
  | cons a l ih =>
    obtain ⟨ha, hl⟩ := List.forall_mem_cons.1 h
    rw [List.mapM_cons, ha, ih hl]
    rfl

theorem filterM_eq {checked : α → Option Bool} {p : α → Bool}
    (h : ∀ a ∈ l, checked a = some (p a)) : l.filterM checked = some (l.filter p) := by
  have hloop : ∀ acc, l.filterAuxM checked acc = some ((l.filter p).reverse ++ acc) := by
    induction l with
    | nil => exact fun _ => rfl
    | cons a l ih =>
      obtain ⟨ha, hl⟩ := List.forall_mem_cons.1 h
      intro acc
      rw [List.filterAuxM, ha, Option.bind_eq_bind, Option.bind_some, ih hl]
      cases hp : p a <;> simp [hp]
  rw [List.filterM, hloop, Option.bind_eq_bind, Option.bind_some, List.append_nil,
    List.reverse_reverse]
  rfl

end Steps

/-! ### Reads -/

variable {b : Body} {i : InsnId} {v w : ValueId} {k : BlockId}

def value (b : Body) (v : ValueId) : Option Value := b.values.get? v

def instruction (b : Body) (i : InsnId) : Option Instruction := b.instructions.get? i

def block (b : Body) (k : BlockId) : Option Block := b.blocks.get? k

def instructionsOf (b : Body) (k : BlockId) : Option (List Instruction) := do
  (← block b k).instructions.mapM (instruction b)

/-- What makes a value, if anything does. -/
def definition (b : Body) (v : ValueId) : Option (Option Instruction) := do
  match (← value b v).definition? with
  | some i => return some (← instruction b i)
  | none => return none

def operands (b : Body) (v : ValueId) : Option (List ValueId) := return (← value b v).operands

def isConstant (b : Body) (v : ValueId) : Option Bool :=
  return (← definition b v).any (·.operation.isConstant)

theorem value_eq (hv : v ∈ b.values) : value b v = some (b.value v) := Table.get?_of_mem hv

theorem instruction_eq (hi : i ∈ b.instructions) : instruction b i = some (b.instruction i) :=
  Table.get?_of_mem hi

theorem block_eq (hk : k ∈ b.blocks) : block b k = some (b.block k) := Table.get?_of_mem hk

theorem instructionsOf_eq (hc : b.Closed) (hk : k ∈ b.blocks) :
    instructionsOf b k = some (b.instructionsOf k) := by
  unfold instructionsOf
  rw [block_eq hk]
  exact mapM_eq fun i hi => instruction_eq (hc.instructions k i hi)

theorem definition_eq (hc : b.Closed) (hv : v ∈ b.values) :
    definition b v = some (b.definition? v) := by
  unfold definition Body.definition?
  rw [value_eq hv, Option.bind_eq_bind, Option.bind_some]
  cases hd : (b.value v).definition? with
  | none => rfl
  | some i =>
    simp only [instruction_eq (hc.definition v i hd)]
    rfl

theorem operands_eq (hv : v ∈ b.values) : operands b v = some (b.operands v) := by
  unfold operands
  rw [value_eq hv]
  rfl

theorem isConstant_eq (hc : b.Closed) (hv : v ∈ b.values) :
    isConstant b v = some (b.isConstant v) := by
  unfold isConstant
  rw [definition_eq hc hv]
  rfl

/-! ### Changes -/

def modifyValue (b : Body) (v : ValueId) (f : Value → Value) : Option Body :=
  return { b with values := ← b.values.modify? v f }

def modifyInstruction (b : Body) (i : InsnId) (f : Instruction → Instruction) : Option Body :=
  return { b with instructions := ← b.instructions.modify? i f }

def setInstructions (b : Body) (k : BlockId) (instructions : List InsnId) : Option Body :=
  return { b with blocks := ← b.blocks.modify? k fun k => { k with instructions } }

/-- Tells the inputs of an instruction who reads them, and its output who makes it. -/
def connect (values : Table .value Value) (i : InsnId) (insn : Instruction) :
    Option (Table .value Value) := do
  let values ← insn.inputs.foldlM (fun values v => values.modify? v (·.addReader i)) values
  insn.output.elim (some values) fun v => values.modify? v (·.defineBy i)

def outputType (values : Table .value Value) (output : Option ValueId) :
    Option (Option (DeclaredType ClassId)) :=
  output.elim (some none) fun v => (values.get? v).map fun x => some x.type

def markThrowing (blocks : Table .block Block) (k : BlockId) (throws : Bool) :
    Option (Table .block Block) :=
  if throws then blocks.modify? k fun k => { k with throwing := true } else some blocks

/-- Makes an instruction without placing it in its block. -/
def pushInstruction (b : Body) (insn : Instruction) : Option (InsnId × Body) := do
  let i := b.instructions.next
  let values ← connect b.values i insn
  let out ← outputType values insn.output
  let blocks ← markThrowing b.blocks insn.block (insn.operation.canThrow out)
  return (i, { b with values, blocks, instructions := b.instructions.push insn })

/-- Replaces the input at a position, which has to be there. -/
def replaceInput (b : Body) (i : InsnId) (position : Nat) (new : ValueId) : Option Body := do
  let old ← (← instruction b i).inputs[position]?
  let inputs := (← instruction b i).inputs.set position new
  let b ← modifyInstruction b i fun insn => { insn with inputs }
  let b ← if old ∈ inputs then some b else modifyValue b old (·.removeReader i)
  modifyValue b new (·.addReader i)

def replaceOutput (b : Body) (i : InsnId) (new : ValueId) : Option Body := do
  let b ← modifyInstruction b i fun insn => { insn with output := some new }
  modifyValue b new (·.defineBy i)

theorem modifyValue_eq (hv : v ∈ b.values) (f : Value → Value) :
    modifyValue b v f = some (b.modifyValue v f) := by
  unfold modifyValue
  rw [Table.modify?_of_mem hv]
  rfl

theorem modifyInstruction_eq (hi : i ∈ b.instructions) (f : Instruction → Instruction) :
    modifyInstruction b i f = some (b.modifyInstruction i f) := by
  unfold modifyInstruction
  rw [Table.modify?_of_mem hi]
  rfl

theorem setInstructions_eq (hk : k ∈ b.blocks) (is : List InsnId) :
    setInstructions b k is = some (b.setInstructions k is) := by
  unfold setInstructions
  rw [Table.modify?_of_mem hk]
  rfl

theorem connect_eq {values : Table .value Value} {insn : Instruction} (i : InsnId)
    (hinputs : ∀ v ∈ insn.inputs, v ∈ values) (houtput : ∀ v, insn.output = some v → v ∈ values) :
    connect values i insn = some (insn.output.elim
      (insn.inputs.foldl (fun values v => values.modify v (·.addReader i)) values) fun v =>
        (insn.inputs.foldl (fun values v => values.modify v (·.addReader i)) values).modify v
          (·.defineBy i)) := by
  -- the readers are changed in a table of the same size
  have hreaders : insn.inputs.foldlM (fun values v => values.modify? v (·.addReader i)) values =
      some (insn.inputs.foldl (fun values v => values.modify v (·.addReader i)) values) := by
    refine foldlM_eq (P := fun t => ∀ v ∈ values, v ∈ t) (fun t h v hv => ?_) fun _ hv => hv
    exact ⟨Table.modify?_of_mem (h v (hinputs v hv)) _, fun w hw => Table.mem_modify.2 (h w hw)⟩
  have hmem : ∀ v ∈ values, v ∈ insn.inputs.foldl
      (fun values v => values.modify v (·.addReader i)) values := fun v hv =>
    List.foldlRecOn (motive := fun t => v ∈ t) _ _ hv fun _ h _ _ => Table.mem_modify.2 h
  unfold connect
  rw [hreaders, Option.bind_eq_bind, Option.bind_some]
  cases hout : insn.output with
  | none => rfl
  | some v => exact Table.modify?_of_mem (hmem v (houtput v hout)) _

theorem outputType_eq {values : Table .value Value} {output : Option ValueId}
    (houtput : ∀ v, output = some v → v ∈ values) :
    outputType values output = some (output.map fun v => (values.get v).type) := by
  cases output with
  | none => rfl
  | some v =>
    show (values.get? v).map _ = _
    rw [Table.get?_of_mem (houtput v rfl)]
    rfl

theorem markThrowing_eq {blocks : Table .block Block} (hk : k ∈ blocks) (throws : Bool) :
    markThrowing blocks k throws =
      some (if throws then blocks.modify k fun k => { k with throwing := true } else blocks) := by
  unfold markThrowing
  rw [Table.modify?_of_mem hk, ← apply_ite some]

theorem pushInstruction_eq {insn : Instruction} (hinputs : ∀ v ∈ insn.inputs, v ∈ b.values)
    (houtput : ∀ v, insn.output = some v → v ∈ b.values) (hblock : insn.block ∈ b.blocks) :
    pushInstruction b insn = some (b.pushInstruction insn) := by
  unfold pushInstruction Body.pushInstruction
  simp only [connect_eq _ hinputs houtput, Option.bind_eq_bind, Option.bind_some]
  generalize hvalues : insn.output.elim _ _ = values
  rw [outputType_eq, Option.bind_some, markThrowing_eq hblock]
  · rfl
  · intro v hv
    have hmem := (Body.mem_values_pushInstruction b insn).2 (houtput v hv)
    unfold Body.pushInstruction at hmem
    simp only [hvalues] at hmem
    exact hmem

theorem replaceInput_eq {position : Nat} (hc : b.Closed) (hi : i ∈ b.instructions)
    (hposition : position < (b.instruction i).inputs.length) (hw : w ∈ b.values) :
    replaceInput b i position w = some (b.replaceInput i position w) := by
  obtain ⟨old, hold⟩ : ∃ old, (b.instruction i).inputs[position]? = some old :=
    ⟨_, List.getElem?_eq_getElem hposition⟩
  have hmem : old ∈ b.values := hc.inputs i hi old (List.mem_of_getElem? hold)
  unfold replaceInput Body.replaceInput
  simp only [instruction_eq hi, hold, modifyInstruction_eq hi, Option.bind_eq_bind,
    Option.bind_some]
  generalize hchanged : b.modifyInstruction i _ = b'
  have hvalues : b'.values = b.values := hchanged ▸ rfl
  split
  · exact modifyValue_eq (hvalues ▸ hw) _
  · rw [modifyValue_eq (hvalues ▸ hmem), Option.bind_some]
    exact modifyValue_eq (Table.mem_modify.2 (hvalues ▸ hw)) _

theorem replaceOutput_eq (hi : i ∈ b.instructions) (hw : w ∈ b.values) :
    replaceOutput b i w = some (b.replaceOutput i w) := by
  unfold replaceOutput Body.replaceOutput
  rw [modifyInstruction_eq hi, Option.bind_eq_bind, Option.bind_some]
  exact modifyValue_eq (b := b.modifyInstruction i _) hw _

end Checked

end JvmLowering
