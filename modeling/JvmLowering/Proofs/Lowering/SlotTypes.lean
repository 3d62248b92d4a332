import JvmLowering.Proofs.Lowering.Failure
import JvmLowering.Proofs.Lowering.Preservation

/-!
# Settings that the code does not hang on

Of all settings only one decides which code is emitted: whether constants are pushed again at each
use. How precisely stack entries are typed shows in the types of their slots and nowhere else,
because a reference takes one slot whatever it refers to. Two lowerings of one body run side by
side, and what one step reads and writes is alike in both.

* `StackType.Alike`, `Body.Alike`: bodies that differ at most in what stack entries refer to;
* `Propagation.run_unrefused`: checks that refuse nothing change nothing;
* `Body.toStackCode_alike`: stack code of one body under two settings;
* `Body.lower_alike`: lowerings of one body under two settings.
-/

namespace JvmLowering

/-! ### Alike up to the types of references -/

/-- The same kind of slot: equal, or both for references. -/
def StackType.Alike {C : Type} (t u : StackType C) : Prop :=
  t = u ∨ t.isObject = true ∧ u.isObject = true

theorem StackType.Alike.width_eq {C : Type} {t u : StackType C} (h : t.Alike u) :
    width t = width u := by
  rcases h with rfl | ⟨ht, hu⟩
  · rfl
  · cases t <;> cases u <;> first | rfl | simp [isObject] at ht hu

theorem StackType.isObject_ofDeclared {C : Type} {t : DeclaredType C} (h : t.isReference = true) :
    (ofDeclared t).isObject = true := by
  rcases t with _ | (b | r)
  · rfl
  · simp [DeclaredType.isReference, FieldType.isReference] at h
  · rfl

/-- Equal origins, but for the types of references on the stack. -/
def Origin.Alike (o o' : Origin) : Prop :=
  o = o' ∨ ∃ (height : Nat) (t u : StackType ClassId) (definition : Option InsnId),
    t.Alike u ∧ o = .stack ⟨height, t⟩ definition ∧ o' = .stack ⟨height, u⟩ definition

namespace Value

/-- Equal values, but for the type of a reference on the stack. -/
structure Alike (x y : Value) : Prop where
  origin : x.origin.Alike y.origin
  type : x.type = y.type
  users : x.users = y.users

variable {x y : Value} {i : InsnId} {p : ValueId}

theorem Alike.refl (x : Value) : x.Alike x := ⟨Or.inl rfl, rfl, rfl⟩

theorem Alike.isStack (h : x.Alike y) : x.isStack = y.isStack := by
  rcases h.origin with ho | ⟨_, _, _, _, -, ho, ho'⟩
  · simp only [Value.isStack, ho]
  · simp only [Value.isStack, ho, ho']

theorem Alike.definition? (h : x.Alike y) : x.definition? = y.definition? := by
  rcases h.origin with ho | ⟨_, _, _, _, -, ho, ho'⟩
  · simp only [Value.definition?, ho]
  · simp only [Value.definition?, ho, ho']

theorem Alike.operands (h : x.Alike y) : x.operands = y.operands := by
  rcases h.origin with ho | ⟨_, _, _, _, -, ho, ho'⟩
  · simp only [Value.operands, ho]
  · simp only [Value.operands, ho, ho']

theorem Alike.addReader (h : x.Alike y) : (x.addReader i).Alike (y.addReader i) :=
  ⟨h.origin, h.type, by simp only [Value.addReader, h.users]⟩

theorem Alike.removeReader (h : x.Alike y) : (x.removeReader i).Alike (y.removeReader i) :=
  ⟨h.origin, h.type, by simp only [Value.removeReader, h.users]⟩

theorem Alike.removePhiReader (h : x.Alike y) : (x.removePhiReader p).Alike (y.removePhiReader p) :=
  ⟨h.origin, h.type, by simp only [Value.removePhiReader, h.users]⟩

theorem Alike.defineBy (h : x.Alike y) : (x.defineBy i).Alike (y.defineBy i) := by
  refine ⟨?_, by rw [type_defineBy, type_defineBy, h.type], by
    rw [users_defineBy, users_defineBy, h.users]⟩
  rcases h.origin with ho | ⟨height, t, u, _, htype, ho, ho'⟩
  · exact Or.inl (origin_defineBy_congr i ho)
  · exact Or.inr ⟨height, t, u, some i, htype, by simp only [Value.defineBy, ho], by
      simp only [Value.defineBy, ho']⟩

end Value

/-- As many values, and alike one by one. -/
structure ValuesAlike (t u : Table .value Value) : Prop where
  size : t.size = u.size
  get : ∀ v, (t.get v).Alike (u.get v)

section Values

variable {t u : Table .value Value} {x y : Value} {i : InsnId}

theorem ValuesAlike.refl (t : Table .value Value) : ValuesAlike t t := ⟨rfl, fun _ => .refl _⟩

theorem ValuesAlike.mem_iff (h : ValuesAlike t u) {v : ValueId} : v ∈ t ↔ v ∈ u := by
  rw [Table.mem_def, Table.mem_def, h.size]

theorem ValuesAlike.next (h : ValuesAlike t u) : t.next = u.next := by
  rw [Table.next, Table.next, h.size]

theorem ValuesAlike.modify (h : ValuesAlike t u) (v : ValueId) {f : Value → Value}
    (hf : ∀ x y, x.Alike y → (f x).Alike (f y)) :
    ValuesAlike (t.modify v f) (u.modify v f) := by
  refine ⟨by rw [Table.size_modify, Table.size_modify, h.size], fun w => ?_⟩
  simp only [Table.get_modify, h.mem_iff]
  split
  · exact hf _ _ (h.get w)
  · exact h.get w

theorem ValuesAlike.push (h : ValuesAlike t u) (hx : x.Alike y) :
    ValuesAlike (t.push x) (u.push y) := by
  refine ⟨by rw [Table.size_push, Table.size_push, h.size], fun w => ?_⟩
  rw [Table.get_push, Table.get_push, h.next]
  split
  · exact hx
  · exact h.get w

theorem ValuesAlike.addReaders (h : ValuesAlike t u) (inputs : List ValueId) :
    ValuesAlike (addReaders i inputs t) (addReaders i inputs u) := by
  induction inputs generalizing t u with
  | nil => exact h
  | cons v inputs ih => exact ih (h.modify v fun _ _ => Value.Alike.addReader)

end Values

namespace Body

/-- Equal bodies, but for the types of references on the stack. -/
structure Alike (b b' : Body) : Prop where
  method : b.method = b'.method
  values : ValuesAlike b.values b'.values
  instructions : b.instructions = b'.instructions
  blocks : b.blocks = b'.blocks

variable {b b' : Body}

theorem Alike.refl (b : Body) : b.Alike b := ⟨rfl, .refl _, rfl, rfl⟩

theorem Alike.value (h : b.Alike b') (v : ValueId) : (b.value v).Alike (b'.value v) :=
  h.values.get v

theorem Alike.instruction (h : b.Alike b') (i : InsnId) : b.instruction i = b'.instruction i := by
  rw [Body.instruction, Body.instruction, h.instructions]

theorem Alike.block (h : b.Alike b') (k : BlockId) : b.block k = b'.block k := by
  rw [Body.block, Body.block, h.blocks]

theorem Alike.definition? (h : b.Alike b') (v : ValueId) : b.definition? v = b'.definition? v := by
  rw [Body.definition?, Body.definition?, (h.value v).definition?, funext h.instruction]

theorem Alike.operands (h : b.Alike b') (v : ValueId) : b.operands v = b'.operands v :=
  (h.value v).operands

theorem Alike.isConstant (h : b.Alike b') (v : ValueId) : b.isConstant v = b'.isConstant v := by
  rw [Body.isConstant, Body.isConstant, h.definition?]

/-! ### Changes side by side -/

theorem Alike.modifyValue (h : b.Alike b') (v : ValueId) {f : Value → Value}
    (hf : ∀ x y, x.Alike y → (f x).Alike (f y)) :
    (b.modifyValue v f).Alike (b'.modifyValue v f) :=
  ⟨h.method, h.values.modify v hf, h.instructions, h.blocks⟩

theorem Alike.modifyInstruction (h : b.Alike b') (i : InsnId) (f : Instruction → Instruction) :
    (b.modifyInstruction i f).Alike (b'.modifyInstruction i f) :=
  ⟨h.method, h.values, congrArg (·.modify i f) h.instructions, h.blocks⟩

theorem Alike.setInstructions (h : b.Alike b') (k : BlockId) (is : List InsnId) :
    (b.setInstructions k is).Alike (b'.setInstructions k is) :=
  ⟨h.method, h.values, h.instructions,
    congrArg (fun t => t.modify k fun l => { l with instructions := is }) h.blocks⟩

/-- Whether an instruction can throw hangs on declared types alone. -/
theorem Alike.pushInstruction (h : b.Alike b') (insn : Instruction) :
    (b.pushInstruction insn).2.Alike (b'.pushInstruction insn).2 := by
  have hvalues :
      ValuesAlike (b.pushInstruction insn).2.values (b'.pushInstruction insn).2.values := by
    rw [values_pushInstruction, values_pushInstruction, h.instructions]
    cases insn.output with
    | none => exact h.values.addReaders insn.inputs
    | some v => exact (h.values.addReaders insn.inputs).modify v fun _ _ => Value.Alike.defineBy
  refine ⟨h.method, hvalues, congrArg (·.push insn) h.instructions, ?_⟩
  have hout : (insn.output.map fun v => ((b.pushInstruction insn).2.values.get v).type) =
      insn.output.map fun v => ((b'.pushInstruction insn).2.values.get v).type :=
    congrArg (insn.output.map ·) (funext fun v => (hvalues.get v).type)
  show (if insn.operation.canThrow
    (insn.output.map fun v => ((b.pushInstruction insn).2.values.get v).type) then _ else _) = _
  rw [hout, h.blocks]
  rfl

theorem Alike.replaceInput (h : b.Alike b') (i : InsnId) (n : Nat) (new : ValueId) :
    (b.replaceInput i n new).Alike (b'.replaceInput i n new) := by
  unfold Body.replaceInput
  rw [h.instruction]
  split
  · exact h
  · refine Alike.modifyValue ?_ _ fun _ _ => Value.Alike.addReader
    split
    · exact h.modifyInstruction _ _
    · exact (h.modifyInstruction _ _).modifyValue _ fun _ _ => Value.Alike.removeReader

theorem Alike.replaceOutput (h : b.Alike b') (i : InsnId) (new : ValueId) :
    (b.replaceOutput i new).Alike (b'.replaceOutput i new) :=
  (h.modifyInstruction i _).modifyValue new fun _ _ => Value.Alike.defineBy

theorem Alike.detach (h : b.Alike b') (p : ValueId) :
    (PhiMoves.detach b p).Alike (PhiMoves.detach b' p) := by
  unfold PhiMoves.detach
  rw [h.operands]
  induction b'.operands p generalizing b b' with
  | nil => exact h
  | cons v vs ih => exact ih (h.modifyValue v fun _ _ => Value.Alike.removePhiReader)

end Body

/-! ### Stacks side by side -/

/-- Stacks with entries at the same heights. -/
structure Slots.Aligned {α : Type} (s t : Slots α) : Prop where
  extent : s.extent = t.extent
  offsets : s.newestFirst.map Prod.fst = t.newestFirst.map Prod.fst

theorem Slots.Aligned.push {α : Type} [HasWidth α] {s t : Slots α} {x y : α} (h : s.Aligned t)
    (hw : width x = width y) :
    (s.push x).2.Aligned (t.push y).2 :=
  ⟨by rw [extent_push, extent_push, h.extent, hw], congrArg₂ List.cons h.extent h.offsets⟩

theorem Slots.Aligned.pop {α : Type} {s t : Slots α} (h : s.Aligned t) : s.pop.Aligned t.pop := by
  obtain ⟨newest, extent⟩ := s
  obtain ⟨newest', extent'⟩ := t
  have hoffsets := h.offsets
  cases newest with
  | nil =>
    obtain rfl : newest' = [] := by simpa using hoffsets
    exact h
  | cons x newest =>
    cases newest' with
    | nil => simp at hoffsets
    | cons y newest' =>
      obtain ⟨hx, hrest⟩ := List.cons.inj hoffsets
      exact ⟨hx, hrest⟩

/-- Lowerings that are equal but for the types of references on the stack. -/
structure Lowering.Alike (l l' : Lowering) : Prop where
  body : l.body.Alike l'.body
  maxStack : l.maxStack = l'.maxStack
  reports : l.reports = l'.reports

namespace Emitter

structure Alike (e e' : Emitter) : Prop extends Lowering.Alike e.toLowering e'.toLowering where
  stack : e.stack.Aligned e'.stack
  emitted : e.emitted = e'.emitted

variable {e e' : Emitter}

theorem Alike.withBody (h : e.Alike e') {b b' : Body} (hb : b.Alike b') :
    Alike { e with body := b } { e' with body := b' } :=
  ⟨⟨hb, h.maxStack, h.reports⟩, h.stack, h.emitted⟩

theorem Alike.report (h : e.Alike e') (event : Event) : (e.report event).Alike (e'.report event) :=
  ⟨⟨h.body, h.maxStack, congrArg (event :: ·) h.reports⟩, h.stack, h.emitted⟩

theorem Alike.place (h : e.Alike e') (i : InsnId) : (e.place i).Alike (e'.place i) :=
  ⟨h.toAlike, h.stack, congrArg (· ++ [i]) h.emitted⟩

theorem Alike.emit (h : e.Alike e') (insn : Instruction) : (e.emit insn).Alike (e'.emit insn) := by
  have hnext : (e.body.pushInstruction insn).1 = (e'.body.pushInstruction insn).1 :=
    congrArg Table.next h.body.instructions
  have hplaced := (h.withBody (h.body.pushInstruction insn)).place (e.body.pushInstruction insn).1
  refine ⟨hplaced.toAlike, hplaced.stack, hplaced.emitted.trans ?_⟩
  exact congrArg (fun i => e'.emitted ++ [i]) hnext

theorem Alike.popEntry (h : e.Alike e') : e.popEntry.Alike e'.popEntry :=
  ⟨h.toAlike, h.stack.pop, h.emitted⟩

theorem Alike.popEntries {α : Type} (h : e.Alike e') (items : List α) :
    (e.popEntries items).Alike (e'.popEntries items) := by
  induction items generalizing e e' with
  | nil => exact h
  | cons _ items ih => exact ih h.popEntry

/-- The entry is the same value, at the same height. -/
theorem Alike.pushEntry (h : e.Alike e') (v : ValueId) {t u : StackType ClassId} (ht : t.Alike u) :
    (e.pushEntry v t).1 = (e'.pushEntry v u).1 ∧
      (e.pushEntry v t).2.Alike (e'.pushEntry v u).2 := by
  have hslot : (⟨.stack ⟨e.stack.extent, t⟩ none, (e.body.value v).type, {}⟩ : Value).Alike
      ⟨.stack ⟨e'.stack.extent, u⟩ none, (e'.body.value v).type, {}⟩ := by
    refine ⟨?_, (h.body.value v).type, rfl⟩
    exact Or.inr ⟨_, t, u, none, ht, rfl, by rw [h.stack.extent]⟩
  have hstack := h.stack.push ht.width_eq
  refine ⟨h.body.values.next,
    ⟨⟨h.body.method, h.body.values.push hslot, h.body.instructions, h.body.blocks⟩, ?_, h.reports⟩,
    hstack, h.emitted⟩
  exact congrArg₂ max h.maxStack hstack.extent

end Emitter

/-! ### Stack code side by side -/

namespace StackCoding

variable {c c' : StackCoding} {e e' : Emitter} {b b' : Body} {v : ValueId}

/-- The entry for a value that is not on the stack is typed as declared, or it is one for a
reference. -/
theorem stackType_cases (c : StackCoding) (hv : (b.value v).isStack = false) :
    c.stackType b v = .ofDeclared (b.value v).type ∨ (b.value v).type.isReference = true ∧
      (c.stackType b v).isObject = true := by
  unfold stackType
  split
  · rename_i slot definition ho
    simp [Value.isStack, ho] at hv
  · have hreference : ∀ t, c.seenType? b v = some t → (b.value v).type.isReference = true := by
      intro t ht
      unfold seenType? at ht
      split at ht
      · rename_i hcondition
        exact (Bool.and_eq_true _ _ ▸ hcondition).2
      · simp at ht
    split
    · rename_i r hr
      exact Or.inr ⟨hreference _ hr, rfl⟩
    · rename_i hnull
      exact Or.inr ⟨hreference _ hnull, rfl⟩
    · exact Or.inl rfl

theorem stackType_alike (c c' : StackCoding) (h : b.Alike b') (v : ValueId) :
    (c.stackType b v).Alike (c'.stackType b' v) := by
  have hvalue := h.value v
  cases hstack : (b.value v).isStack with
  | true =>
    rcases hvalue.origin with ho | ⟨_, _, _, _, htype, ho, ho'⟩
    · have hslot : ∃ slot definition, (b.value v).origin = .stack slot definition := by
        by_contra hnot
        exact Body.isStack_iff.1 hstack fun slot definition hslot => hnot ⟨slot, definition, hslot⟩
      obtain ⟨slot, definition, hslot⟩ := hslot
      refine Or.inl ?_
      simp only [stackType, hslot, ho.symm.trans hslot]
    · simpa only [stackType, ho, ho'] using htype
  | false =>
    have hstack' : (b'.value v).isStack = false := hvalue.isStack.symm.trans hstack
    rcases c.stackType_cases hstack with hdeclared | ⟨hreference, hobject⟩
    · rcases c'.stackType_cases hstack' with hdeclared' | ⟨hreference', hobject'⟩
      · exact Or.inl (by rw [hdeclared, hdeclared', hvalue.type])
      · refine Or.inr ⟨?_, hobject'⟩
        rw [hdeclared, hvalue.type]
        exact StackType.isObject_ofDeclared hreference'
    · rcases c'.stackType_cases hstack' with hdeclared' | ⟨-, hobject'⟩
      · refine Or.inr ⟨hobject, ?_⟩
        rw [hdeclared', ← hvalue.type]
        exact StackType.isObject_ofDeclared hreference
      · exact Or.inr ⟨hobject, hobject'⟩

variable (hc : c.settings.rematerialize = c'.settings.rematerialize)
include hc

theorem constant?_alike (h : b.Alike b') (v : ValueId) : c.constant? b v = c'.constant? b' v := by
  unfold constant?
  rw [h.definition?, hc, (h.value v).isStack]

theorem pushOperand_alike (h : e.Alike e') (k : BlockId) (line : Option UInt32) (v : ValueId) :
    (c.pushOperand k line e v).1 = (c'.pushOperand k line e' v).1 ∧
      (c.pushOperand k line e v).2.Alike (c'.pushOperand k line e' v).2 := by
  obtain ⟨hentry, hpushed⟩ := h.pushEntry v (stackType_alike c c' h.body v)
  unfold pushOperand
  generalize e.pushEntry v (c.stackType e.body v) = pushed at hentry hpushed
  generalize e'.pushEntry v (c'.stackType e'.body v) = pushed' at hentry hpushed
  obtain ⟨entry, p⟩ := pushed
  obtain ⟨entry', p'⟩ := pushed'
  simp only at hentry hpushed ⊢
  subst hentry
  rw [constant?_alike hc hpushed.body]
  split
  · exact ⟨rfl, (hpushed.report _).emit _⟩
  · exact ⟨rfl, (hpushed.report _).emit _⟩

theorem loadInput_alike (h : e.Alike e') (k : BlockId) (i : InsnId) (line : Option UInt32)
    (input : ValueId × Nat) :
    Together Emitter.Alike (c.loadInput k i line e input) (c'.loadInput k i line e' input) := by
  obtain ⟨v, n⟩ := input
  obtain ⟨hentry, hpushed⟩ := pushOperand_alike hc h k line v
  have hloads := c.loads k i line e v n
  generalize c.loadInput k i line e (v, n) = outcome at hloads ⊢
  cases hloads with
  | refused onStack =>
    rw [(h.body.value v).isStack, h.body.isConstant] at onStack
    rw [(Loads.refused onStack).eq]
    exact ⟨h, rfl⟩
  | pushed free =>
    rw [(h.body.value v).isStack, h.body.isConstant] at free
    rw [(Loads.pushed free).eq, hentry]
    exact ⟨hpushed.withBody (hpushed.body.replaceInput i n _), rfl⟩

omit hc in
theorem storeOutput_alike (h : e.Alike e') (k : BlockId) (i : InsnId) (line : Option UInt32)
    (v : ValueId) :
    (c.storeOutput k i line e v).Alike (c'.storeOutput k i line e' v) := by
  obtain ⟨hentry, hpushed⟩ := h.pushEntry v (stackType_alike c c' h.body v)
  unfold storeOutput
  generalize e.pushEntry v (c.stackType e.body v) = pushed at hentry hpushed
  generalize e'.pushEntry v (c'.stackType e'.body v) = pushed' at hentry hpushed
  obtain ⟨entry, p⟩ := pushed
  obtain ⟨entry', p'⟩ := pushed'
  simp only at hentry hpushed ⊢
  subst hentry
  have hplaced := (hpushed.withBody (hpushed.body.replaceOutput i entry)).place i
  rw [(hplaced.body.value v).users]
  split
  · exact ((hplaced.emit _).report _).popEntry
  · exact ((hplaced.emit _).report _).popEntry

theorem convert_alike (h : e.Alike e') (k : BlockId) (i : InsnId) :
    Together Emitter.Alike (c.convert k e i) (c'.convert k e' i) := by
  have hdropped :
      c.isDropped e.body (e'.body.instruction i) =
      c'.isDropped e'.body (e'.body.instruction i) := by
    unfold isDropped
    rw [hc, funext fun v => (h.body.value v).isStack]
  -- the inputs are loaded alike under both settings
  have hloading := attemptAll_together
    (fun s t input hst => loadInput_alike hc hst k i (e'.body.instruction i).line input)
    (e'.body.instruction i).inputs.zipIdx h
  have hconverts := c.converts k e i
  rw [h.body.instruction] at hconverts
  generalize c.convert k e i = outcome at hconverts ⊢
  cases hconverts with
  -- so the other run does the same in each case
  | argument isArgument =>
    rw [(Converts.argument isArgument).eq]
    exact ⟨h.place i, rfl⟩
  | dropped isArgument isDropped =>
    rw [(Converts.dropped isArgument (hdropped ▸ isDropped)).eq]
    exact ⟨h.report _, rfl⟩
  | refused isArgument isDropped inputs =>
    rw [inputs] at hloading
    obtain ⟨loaded, hloaded, inputs'⟩ := hloading.other
    rw [(Converts.refused isArgument (hdropped ▸ isDropped) inputs').eq]
    exact ⟨hloaded, rfl⟩
  | effect isArgument isDropped inputs output =>
    rw [inputs] at hloading
    obtain ⟨loaded, hloaded, inputs'⟩ := hloading.other
    rw [(Converts.effect isArgument (hdropped ▸ isDropped) inputs' output).eq]
    exact ⟨(hloaded.popEntries _).place i, rfl⟩
  | @misplaced _ v isArgument isDropped inputs output onStack =>
    rw [inputs] at hloading
    obtain ⟨loaded, hloaded, inputs'⟩ := hloading.other
    have hpopped := hloaded.popEntries (e'.body.instruction i).inputs
    rw [(hpopped.body.value v).isStack] at onStack
    rw [(Converts.misplaced isArgument (hdropped ▸ isDropped) inputs' output onStack).eq]
    exact ⟨hpopped, rfl⟩
  | @result _ v isArgument isDropped inputs output free =>
    rw [inputs] at hloading
    obtain ⟨loaded, hloaded, inputs'⟩ := hloading.other
    have hpopped := hloaded.popEntries (e'.body.instruction i).inputs
    rw [(hpopped.body.value v).isStack] at free
    rw [(Converts.result isArgument (hdropped ▸ isDropped) inputs' output free).eq]
    exact ⟨storeOutput_alike hpopped k i _ v, rfl⟩

theorem convertBlock_alike {l l' : Lowering} (h : l.Alike l') (k : BlockId) :
    Together Lowering.Alike (c.convertBlock l k) (c'.convertBlock l' k) := by
  have hstart : Emitter.Alike { l with body := l.body.setInstructions k [] }
      { l' with body := l'.body.setInstructions k [] } :=
    ⟨⟨h.body.setInstructions k [], h.maxStack, h.reports⟩, ⟨rfl, rfl⟩, rfl⟩
  have hconverting :=
    attemptAll_together (fun s t i hst => convert_alike hc hst k i)
      (l'.body.block k).instructions hstart
  have hconverts := c.convertsBlock l k
  generalize c.convertBlock l k = outcome at hconverts ⊢
  cases hconverts with
  | refused run =>
    rw [h.body.block] at run
    rw [run] at hconverting
    obtain ⟨t, ht, run'⟩ := hconverting.other
    rw [(ConvertsBlock.refused run').eq]
    exact ⟨ht.toAlike, rfl⟩
  | @converted s run =>
    rw [h.body.block] at run
    rw [run] at hconverting
    obtain ⟨t, ht, run'⟩ := hconverting.other
    have hbody : (s.body.setInstructions k s.emitted).Alike
        (t.body.setInstructions k t.emitted) := by
      rw [ht.emitted]
      exact ht.body.setInstructions k _
    rw [(ConvertsBlock.converted run').eq]
    exact ⟨⟨hbody, ht.maxStack, ht.reports⟩, rfl⟩

theorem insertLoadsAndStores_alike {l l' : Lowering} (h : l.Alike l') :
    Together Lowering.Alike (c.insertLoadsAndStores l) (c'.insertLoadsAndStores l') := by
  unfold insertLoadsAndStores
  rw [h.body.blocks]
  rcases (attemptAll_together (fun s t k hst => convertBlock_alike hc hst k) l'.body.blocks.indices
      h).cases with
    ⟨s, t, hconverted, hs, ht⟩ | ⟨s, t, error, hconverted, hs, ht⟩
  · rw [hs, ht]
    refine ⟨⟨hconverted.body, hconverted.maxStack, ?_⟩, rfl⟩
    exact congrArg₂ List.cons
      (congrArg₂ Event.stackMeasured hconverted.body.method hconverted.maxStack) hconverted.reports
  · rw [hs, ht]
    exact ⟨hconverted, rfl⟩

end StackCoding

/-! ### Phi moves side by side -/

namespace PhiMoves

variable {c c' : StackCoding} {e e' : Emitter} {b b' : Body}

theorem onEdge_alike (h : b.Alike b') (a : Locals) (phis : List ValueId) (position : Nat) :
    onEdge b a phis position = onEdge b' a phis position := by
  unfold onEdge
  rw [funext h.operands]
  refine congrArg (List.filter · _) (funext fun m => ?_)
  unfold isNeeded
  rw [h.isConstant]

theorem splitJump_alike (h : b.Alike b') (is : List InsnId) : splitJump b is = splitJump b' is := by
  unfold splitJump
  rw [funext h.instruction]

theorem miscounted?_alike (h : b.Alike b') (k : BlockId) : miscounted? b k = miscounted? b' k := by
  unfold miscounted?
  rw [h.block, funext h.operands]

theorem store_alike (h : e.Alike e') (k : BlockId) (line : Option UInt32)
    (move : PhiMove × ValueId) :
    (store k line e move).Alike (store k line e' move) :=
  (h.popEntry.emit _).report _

variable (hc : c.settings.rematerialize = c'.settings.rematerialize)
include hc

theorem pushAll_alike (h : e.Alike e') (k : BlockId) (line : Option UInt32) (moves : List PhiMove) :
    (pushAll c k line e moves).1 = (pushAll c' k line e' moves).1 ∧
      (pushAll c k line e moves).2.Alike (pushAll c' k line e' moves).2 := by
  induction moves generalizing e e' with
  | nil => exact ⟨rfl, h⟩
  | cons m moves ih =>
    obtain ⟨hentry, hpushed⟩ := StackCoding.pushOperand_alike hc h k line m.operand
    obtain ⟨hrest, hall⟩ := ih hpushed
    exact ⟨congrArg₂ List.cons (congrArg (Prod.mk m) hentry) hrest, hall⟩

theorem insert_alike {l l' : Lowering} (h : l.Alike l') (k : BlockId) (moves : List PhiMove) :
    (insert c l k moves).Alike (insert c' l' k moves) := by
  unfold insert
  rw [h.body.block, splitJump_alike h.body, funext h.body.instruction]
  generalize splitJump l'.body (l'.body.block k).instructions = split
  obtain ⟨before, jump⟩ := split
  have hstart : Emitter.Alike { l with emitted := before } { l' with emitted := before } :=
    ⟨h, ⟨rfl, rfl⟩, rfl⟩
  obtain ⟨hentries, hpushed⟩ :=
    pushAll_alike hc hstart k (jump.bind fun i => (l'.body.instruction i).line) moves
  simp only
  generalize pushAll c k _ _ moves = x at hentries hpushed
  generalize pushAll c' k _ _ moves = y at hentries hpushed
  obtain ⟨entries, p⟩ := x
  obtain ⟨entries', p'⟩ := y
  obtain rfl : entries = entries' := hentries
  have hstored : ∀ (ms : List (PhiMove × ValueId)) {s t : Emitter}, s.Alike t →
      (ms.foldl (store k (jump.bind fun i => (l'.body.instruction i).line)) s).Alike
        (ms.foldl (store k (jump.bind fun i => (l'.body.instruction i).line)) t) := by
    intro ms
    induction ms with
    | nil => exact id
    | cons m ms ih => exact fun hst => ih (store_alike hst k _ m)
  have hall := hstored entries.reverse hpushed
  refine ⟨?_, hall.maxStack, hall.reports⟩
  simp only [hall.emitted]
  exact hall.body.setInstructions k _

theorem insertOnEdge_alike {l l' : Lowering} (h : l.Alike l') (a : Locals) (k : BlockId)
    (phis : List ValueId) (edge : BlockId × Nat) :
    Together Lowering.Alike (insertOnEdge c a k phis l edge)
      (insertOnEdge c' a k phis l' edge) := by
  obtain ⟨source, position⟩ := edge
  have hedge := onEdge_alike h.body a phis position
  have hmoving := moves c a k phis l source position
  generalize insertOnEdge c a k phis l (source, position) = outcome at hmoving ⊢
  cases hmoving with
  | unmoved unneeded =>
    rw [(Moves.unmoved (hedge ▸ unneeded)).eq]
    exact ⟨h, rfl⟩
  | critical needed branches =>
    rw [h.body.block] at branches
    rw [(Moves.critical (hedge ▸ needed) branches).eq]
    exact ⟨h, rfl⟩
  | moved needed single =>
    rw [h.body.block] at single
    rw [(Moves.moved (hedge ▸ needed) single).eq, hedge]
    exact ⟨insert_alike hc h source _, rfl⟩

omit hc in
theorem detachAll_alike (h : b.Alike b') (phis : List ValueId) :
    (phis.foldl detach b).Alike (phis.foldl detach b') := by
  induction phis generalizing b b' with
  | nil => exact h
  | cons p phis ih => exact ih (h.detach p)

/-- Both lowerings keep their local variables in step. -/
def AlikeWithLocals (s s' : Lowering × Locals) : Prop := s.1.Alike s'.1 ∧ s.2 = s'.2

theorem resolveBlock_alike {s s' : Lowering × Locals} (h : AlikeWithLocals s s') (k : BlockId) :
    Together AlikeWithLocals (resolveBlock c s k) (resolveBlock c' s' k) := by
  obtain ⟨l, a⟩ := s
  obtain ⟨l', a'⟩ := s'
  obtain ⟨hl, ha⟩ := h
  obtain rfl : a = a' := ha
  have hcount := miscounted?_alike hl.body k
  -- the moves are inserted alike under both settings
  have hinserting := attemptAll_together
    (fun s t edge hst => insertOnEdge_alike hc hst a k (l'.body.block k).phis edge)
    (l'.body.block k).predecessors.zipIdx hl
  have hresolves := resolves c l a k
  generalize resolveBlock c (l, a) k = outcome at hresolves ⊢
  cases hresolves with
  | unphied phis =>
    rw [hl.body.block] at phis
    rw [(Resolves.unphied phis).eq]
    exact ⟨⟨hl, rfl⟩, rfl⟩
  | miscounted phis count =>
    rw [hl.body.block] at phis
    rw [(Resolves.miscounted phis (hcount ▸ count)).eq]
    exact ⟨⟨hl, rfl⟩, rfl⟩
  | refused phis count edges =>
    rw [hl.body.block] at phis edges
    rw [edges] at hinserting
    obtain ⟨t, ht, edges'⟩ := hinserting.other
    rw [(Resolves.refused phis (hcount ▸ count) edges').eq]
    exact ⟨⟨ht, rfl⟩, rfl⟩
  | resolved phis count edges =>
    rw [hl.body.block] at phis edges
    rw [edges] at hinserting
    obtain ⟨t, ht, edges'⟩ := hinserting.other
    rw [(Resolves.resolved phis (hcount ▸ count) edges').eq, hl.body.block]
    exact ⟨⟨⟨detachAll_alike ht.body _, ht.maxStack, ht.reports⟩, rfl⟩, rfl⟩

end PhiMoves

namespace Body

variable {b b' : Body} {g : Hierarchy}

/-- The stack code hangs on the settings only through whether constants are pushed again. -/
theorem toStackCode_alike (c c' : StackCoding)
    (hc : c.settings.rematerialize = c'.settings.rematerialize) (b : Body) (a : Locals) :
    Together PhiMoves.AlikeWithLocals (b.toStackCode c a) (b.toStackCode c' a) := by
  have hstart : Lowering.Alike { body := b } { body := b } := ⟨.refl b, rfl, rfl⟩
  unfold toStackCode
  rcases (StackCoding.insertLoadsAndStores_alike hc hstart).cases with
    ⟨l, l', hconverted, hl, hl'⟩ | ⟨l, l', error, hconverted, hl, hl'⟩
  · rw [hl, hl']
    simp only [StackCoding.insertPhiMoves, hconverted.body.blocks]
    exact attemptAll_together (fun s t k hst => PhiMoves.resolveBlock_alike hc hst k) _
      ⟨hconverted, rfl⟩
  · rw [hl, hl']
    exact ⟨⟨hconverted, rfl⟩, rfl⟩

/-- Frames do not look at the slots of stack entries. -/
theorem compute_alike (h : b.Alike b') (a : Locals) (t : VerifierTyping) :
    EntryFrames.compute g b a t = EntryFrames.compute g b' a t := by
  have hlocal : EntryFrames.localType g b t = EntryFrames.localType g b' t := by
    funext k v
    unfold EntryFrames.localType EntryFrames.isUninitialized
    simp only [h.values.mem_iff, h.method, h.definition?, (h.value v).type]
  have hcaught : b.caught? = b'.caught? := by
    funext k
    unfold caught? instructionsOf
    rw [h.block, funext h.instruction]
  have hplace : EntryFrames.placeLocal g b t = EntryFrames.placeLocal g b' t := by
    funext k l entry
    unfold EntryFrames.placeLocal
    rw [hlocal]
  have hframe : EntryFrames.addFrame g b a t = EntryFrames.addFrame g b' a t := by
    funext p k
    unfold EntryFrames.addFrame EntryFrames.entryStack
    rw [hplace, hcaught]
  unfold EntryFrames.compute
  rw [hframe, h.blocks]

end Body

/-! ### Checks that refuse nothing -/

namespace Propagation

variable {g : Hierarchy} {f f' : Flow} {s t t' : State}

/-- Two flows that differ only in what they refuse take the same steps until one of them refuses
something. -/
theorem step_unrefused (hbound : f.bound = f'.bound) (hcandidate : f.candidate = f'.candidate)
    (hdependents : f.dependents = f'.dependents) (h : ∀ e, step g f s ≠ .refused e)
    (h' : ∀ e, step g f' s ≠ .refused e) :
    step g f s = step g f' s := by
  unfold step at h h' ⊢
  cases hpop : s.work.pop? with
  | none => rfl
  | some popped =>
    obtain ⟨v, work⟩ := popped
    simp only [hpop, hbound, hcandidate, hdependents] at h h' ⊢
    split
    · rename_i hv
      simp only [if_pos hv] at h h'
      cases hr : f.refuse v (s.types.get v) (f'.candidate s.types.get v) with
      | some e => exact absurd (by rw [hr]) (h e)
      | none =>
        cases hr' : f'.refuse v (s.types.get v) (f'.candidate s.types.get v) with
        | some e => exact absurd (by rw [hr']) (h' e)
        | none => rfl
    · rfl

theorem run_unrefused (hbound : f.bound = f'.bound) (hcandidate : f.candidate = f'.candidate)
    (hdependents : f.dependents = f'.dependents) (h : run g f s = (t, none))
    (h' : run g f' s = (t', none)) : t = t' := by
  have unrefused : ∀ {f : Flow} {s t : State}, run g f s = (t, none) →
      ∀ e, step g f s ≠ .refused e := by
    intro f s t h e he
    rw [run] at h
    split at h <;> simp_all
  fun_induction run g f s with
  | case1 s hs =>
    have hstep := step_unrefused hbound hcandidate hdependents (fun e he => by simp [hs] at he)
      (unrefused h')
    rw [run] at h'
    split at h' <;> simp_all
  | case2 s e hs => simp at h
  | case3 s next hs _ ih =>
    have hstep := step_unrefused hbound hcandidate hdependents (fun e he => by simp [hs] at he)
      (unrefused h')
    refine ih h ?_
    rw [run] at h'
    split at h' <;> simp_all

end Propagation

/-- The analysis finds the same types whether phis are checked or not. -/
theorem FlowTyping.infer_unrefused {g : Hierarchy} {s s' : Settings} {b : Body}
    {types types' : FlowTyping} (h : (infer g s b).result = .ok types)
    (h' : (infer g s' b).result = .ok types') : types = types' := by
  unfold infer at h h'
  split at h
  · rename_i t ht
    split at h'
    · rename_i t' ht'
      have hbound : (flow g s b).bound = (flow g s' b).bound := rfl
      have heq : t = t' := Propagation.run_unrefused hbound rfl rfl ht ht'
      simp only [Except.ok.injEq] at h h'
      rw [← h, ← h', heq]
    · simp at h'
  · simp at h

namespace Body

/-! ### Lowerings side by side -/

/-- **The code depends on one setting only.** Two settings that agree on whether constants are
pushed again lower a body to the same code, with the same types and the same local variables. Only
what entries of the stack refer to may be recorded differently. -/
theorem lower_alike (g : Hierarchy) (b : Body) (a : Locals) {s₁ s₂ : Settings}
    (hs : s₁.rematerialize = s₂.rematerialize) {a₁ a₂ : Locals} {l₁ l₂ : LoweredMethod}
    (h₁ : (b.lower g s₁ a).result = (a₁, .ok l₁)) (h₂ : (b.lower g s₂ a).result = (a₂, .ok l₂)) :
    a₁ = a₂ ∧ l₁.body.Alike l₂.body ∧ l₁.maxStack = l₂.maxStack ∧ l₁.types = l₂.types ∧
      l₁.verifier = l₂.verifier ∧
      (s₁.frames = true → s₂.frames = true → l₁.frames = l₂.frames) := by
  obtain ⟨types₁, verifier₁, m₁, frames₁, htypes₁, hverifier₁, hcode₁, hframes₁, rfl⟩ :=
    lower_eq_ok.1 h₁
  obtain ⟨types₂, verifier₂, m₂, frames₂, htypes₂, hverifier₂, hcode₂, hframes₂, rfl⟩ :=
    lower_eq_ok.1 h₂
  have htypes : types₁ = types₂ := FlowTyping.infer_unrefused htypes₁ htypes₂
  obtain rfl : verifier₁ = verifier₂ := Except.ok.inj (hverifier₁.symm.trans hverifier₂)
  obtain ⟨⟨hcode, ha⟩, -⟩ :=
    toStackCode_alike ⟨s₁, if s₁.preciseStack then some verifier₁ else none⟩
      ⟨s₂, if s₂.preciseStack then some verifier₁ else none⟩ hs b a
  rw [hcode₁, hcode₂] at hcode ha
  obtain rfl : a₁ = a₂ := ha
  refine ⟨rfl, hcode.body, hcode.maxStack, htypes, rfl, fun hf₁ hf₂ => ?_⟩
  rw [entryFrames, if_pos hf₁, compute_alike hcode.body] at hframes₁
  rw [entryFrames, if_pos hf₂] at hframes₂
  exact Except.ok.inj (hframes₁.symm.trans hframes₂)

/-! ### A number that is returned as an object -/

/-- The platform with a static method that gives an object. -/
def boxHierarchy : Hierarchy :=
  (Hierarchy.platform.addMethod
    ⟨.first, ⟨"box", by decide⟩, ⟨[], some (.ref (.object .first))⟩,
      .ofList [MethodFlag.isStatic]⟩).2

/-- A number is made, merged and returned, always as an object. -/
def boxed : Body := .ofSteps ⟨0⟩
  [.block, .block, .edge ⟨0⟩ ⟨1⟩,
   .instruction ⟨0⟩ (.newInstance ⟨8⟩) [] (some (.field (.ref (.object .first)))),
   .instruction ⟨0⟩ .goto,
   .phi ⟨1⟩ (.field (.ref (.object .first))), .operand ⟨1⟩ ⟨0⟩,
   .instruction ⟨1⟩ .ret [⟨1⟩]]

/-- Precise types show that the object is a number, but the code is the same without them. -/
theorem lower_alike_boxed : ∃ a a₁ a₂ l₁ l₂, Locals.naive {} boxed = .ok a ∧
    (boxed.lower boxHierarchy {} a).result = (a₁, .ok l₁) ∧
    (boxed.lower boxHierarchy ⟨true, false, false, true⟩ a).result = (a₂, .ok l₂) ∧
    (l₁.body.value ⟨2⟩).origin = .stack ⟨0, .object (.object ⟨8⟩)⟩ (some ⟨0⟩) ∧
    (l₂.body.value ⟨2⟩).origin = .stack ⟨0, .object (.object .first)⟩ (some ⟨0⟩) ∧
    l₁.body.Alike l₂.body ∧ l₁.frames = l₂.frames := by
  have h : (match Locals.naive {} boxed with
      | .error _ => false
      | .ok a =>
        match (boxed.lower boxHierarchy {} a).result,
            (boxed.lower boxHierarchy ⟨true, false, false, true⟩ a).result with
        | (_, .ok l₁), (_, .ok l₂) =>
          (l₁.body.value ⟨2⟩).origin = .stack ⟨0, .object (.object ⟨8⟩)⟩ (some ⟨0⟩) &&
            (l₂.body.value ⟨2⟩).origin = .stack ⟨0, .object (.object .first)⟩ (some ⟨0⟩)
        | _, _ => false) = true := by
    cbv
  split at h
  · simp at h
  rename_i a ha
  split at h
  · rename_i a₁ l₁ a₂ l₂ h₁ h₂
    have hs : ({} : Settings).rematerialize = (⟨true, false, false, true⟩ :
      Settings).rematerialize := rfl
    obtain ⟨-, hcode, -, -, -, hframes⟩ := lower_alike boxHierarchy boxed a hs h₁ h₂
    obtain ⟨hnumber, hobject⟩ := Bool.and_eq_true _ _ ▸ h
    exact ⟨a, a₁, a₂, l₁, l₂, ha, h₁, h₂, of_decide_eq_true hnumber, of_decide_eq_true hobject,
      hcode, hframes rfl rfl⟩
  · simp at h

end Body

end JvmLowering
