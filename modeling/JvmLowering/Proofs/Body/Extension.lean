import JvmLowering.Proofs.Body.Built

/-!
# Bodies that grow

A step of building only adds: what is there keeps its type and its maker, and a phi gets at most
further operands.

* `Extends`: a body that has grown;
* `extends_construct`: a step of building makes it grow.
-/

namespace JvmLowering.Body

variable {b b' b'' : Body} {v w p : ValueId} {i : InsnId} {k : BlockId}

/-- The second body has all that the first one has. -/
structure Extends (b b' : Body) : Prop where
  method : b'.method = b.method
  mem_values : ∀ v ∈ b.values, v ∈ b'.values
  type : ∀ v ∈ b.values, (b'.value v).type = (b.value v).type
  isPhi : ∀ v ∈ b.values, (b'.value v).isPhi = (b.value v).isPhi
  definition : ∀ v ∈ b.values, b'.definition? v = b.definition? v
  operands : ∀ v, b.operands v <+: b'.operands v

theorem Extends.refl (b : Body) : Extends b b :=
  ⟨rfl, fun _ hv => hv, fun _ _ => rfl, fun _ _ => rfl, fun _ _ => rfl, fun _ => List.prefix_refl _⟩

theorem Extends.trans (h : Extends b b') (h' : Extends b' b'') : Extends b b'' where
  method := h'.method.trans h.method
  mem_values v hv := h'.mem_values v (h.mem_values v hv)
  type v hv := (h'.type v (h.mem_values v hv)).trans (h.type v hv)
  isPhi v hv := (h'.isPhi v (h.mem_values v hv)).trans (h.isPhi v hv)
  definition v hv := (h'.definition v (h.mem_values v hv)).trans (h.definition v hv)
  operands v := (h.operands v).trans (h'.operands v)

/-! ### What is declared -/

theorem addEdge_declared {source target : BlockId} (h : b.addEdge source target = .ok b') :
    b'.method = b.method ∧ b'.instructions = b.instructions := by
  unfold addEdge at h
  split at h
  · simp at h
  · split at h
    · simp at h
    · simp only [Except.ok.injEq] at h
      subst h
      exact ⟨rfl, rfl⟩

theorem append_declared {operation : Operation} {inputs : List ValueId}
    {out : Option (DeclaredType ClassId)} (h : b.append k operation inputs out = .ok (i, b')) :
    b'.method = b.method ∧ ∀ v ∈ b.values, (b'.value v).type = (b.value v).type := by
  have hmethod : (b.withOutput out).method = b.method := by cases out <;> rfl
  have htype : ∀ v ∈ b.values, ((b.withOutput out).value v).type = (b.value v).type := by
    intro v hv
    cases out with
    | none => rfl
    | some t =>
      rw [withOutput, Option.elim_some, value_pushValue, if_neg]
      rintro rfl
      exact Table.next_notMem b.values hv
  unfold append at h
  simp only at h
  split at h
  · simp at h
  · split at h
    · simp at h
    · rw [← (Prod.mk.inj (Except.ok.inj h)).2]
      refine ⟨hmethod, fun v hv => ?_⟩
      rw [value_modifyBlock]
      exact (type_pushInstruction (b.withOutput out) v _).trans (htype v hv)

theorem addPhi_declared {type : DeclaredType ClassId} (h : b.addPhi k type = .ok (p, b')) :
    b'.method = b.method ∧ ∀ v ∈ b.values, (b'.value v).type = (b.value v).type := by
  unfold addPhi at h
  split at h
  · simp at h
  · simp only [Except.ok.injEq, Prod.mk.injEq] at h
    obtain ⟨-, rfl⟩ := h
    refine ⟨rfl, fun v hv => ?_⟩
    rw [value_modifyBlock, value_pushValue, if_neg]
    rintro rfl
    exact Table.next_notMem b.values hv

theorem addPhiOperand_declared (h : b.addPhiOperand p v = .ok b') :
    b'.method = b.method ∧ ∀ w, (b'.value w).type = (b.value w).type := by
  unfold addPhiOperand at h
  split at h
  · simp at h
  · split at h
    · split at h
      · simp at h
      · simp only [Except.ok.injEq] at h
        subst h
        refine ⟨rfl, fun w => ?_⟩
        simp only [value_modifyValue, apply_ite Value.type, Value.addPhiReader, ite_self]
    · simp at h

/-! ### Steps of building -/

/-- Where the origins of values and the instructions stay, so do the makers of values. -/
theorem extends_of_origin (hb : b.WellFormed) (hmethod : b'.method = b.method)
    (hmem : ∀ v ∈ b.values, v ∈ b'.values)
    (htype : ∀ v ∈ b.values, (b'.value v).type = (b.value v).type)
    (horigin : ∀ v ∈ b.values, (b'.value v).origin = (b.value v).origin)
    (hinstruction : ∀ i ∈ b.instructions, b'.instruction i = b.instruction i)
    (hoperands : ∀ v, b'.operands v = b.operands v) : Extends b b' := by
  refine ⟨hmethod, hmem, htype, fun v hv => ?_, fun v hv => ?_,
    fun v => (hoperands v).symm ▸ List.prefix_refl _⟩
  · simp only [Value.isPhi, horigin v hv]
  · simp only [definition?, Value.definition?, horigin v hv]
    cases ho : (b.value v).origin with
    | instruction i => simp [hinstruction i (hb.output_of_origin v i ho).1]
    | phi l operands => rfl
    | stack slot definition => exact absurd ho (hb.not_stack v hv slot definition)

theorem extends_addEdge {source target : BlockId} (hb : b.WellFormed)
    (h : b.addEdge source target = .ok b') : Extends b b' := by
  obtain ⟨-, -, hr, -, -, -⟩ := addEdge_ok h
  obtain ⟨hmethod, hinstructions⟩ := addEdge_declared h
  refine extends_of_origin hb hmethod (fun v hv => (hr.mem_values v).2 hv) (fun v _ => ?_)
    (fun v _ => ?_) (fun i _ => ?_) fun v => ?_
  · rw [hr.value]
  · rw [hr.value]
  · rw [instruction, instruction, hinstructions]
  · rw [operands, operands, hr.value]

theorem extends_append {operation : Operation} {inputs : List ValueId}
    {out : Option (DeclaredType ClassId)} (hb : b.WellFormed)
    (h : b.append k operation inputs out = .ok (i, b')) : Extends b b' := by
  have ha := append_ok h
  obtain ⟨hmethod, htype⟩ := append_declared h
  refine extends_of_origin hb hmethod (fun v hv => (ha.mem_values v).2 (Or.inl hv)) htype
    (fun v hv => ?_) (fun j hj => ?_) ha.operands
  · rw [ha.origin, if_neg]
    rintro ⟨rfl, -⟩
    exact Table.next_notMem b.values hv
  · rw [ha.instruction, if_neg]
    rintro rfl
    exact Table.next_notMem b.instructions (ha.id ▸ hj)

theorem extends_addPhi {type : DeclaredType ClassId} (hb : b.WellFormed)
    (h : b.addPhi k type = .ok (p, b')) :
    Extends b b' := by
  have ha := addPhi_ok h
  obtain ⟨hmethod, htype⟩ := addPhi_declared h
  refine extends_of_origin hb hmethod (fun v hv => (ha.mem_values v).2 (Or.inl hv)) htype
    (fun v hv => ?_) (fun j _ => ?_) ha.operands
  · rw [ha.origin, if_neg]
    rintro rfl
    exact Table.next_notMem b.values (ha.id ▸ hv)
  · rw [instruction, instruction, ha.instructions]

/-- A phi with another operand is the only value whose origin changes. -/
theorem extends_addPhiOperand (h : b.addPhiOperand p v = .ok b') : Extends b b' := by
  have ha := addPhiOperand_ok h
  obtain ⟨hmethod, htype⟩ := addPhiOperand_declared h
  obtain ⟨k, operands, ho, horigin⟩ := ha.phi
  have hinstruction : b'.instruction = b.instruction :=
    funext fun j => by rw [instruction, instruction, ha.instructions]
  refine ⟨hmethod, fun w hw => (ha.mem_values w).2 hw, fun w _ => htype w, fun w _ => ?_,
    fun w _ => ?_, fun w => (ha.operands w).symm ▸ List.prefix_append _ _⟩
  · by_cases hw : w = p
    · simp [Value.isPhi, horigin, hw, ho]
    · simp [Value.isPhi, horigin, hw]
  · by_cases hw : w = p
    · simp [definition?, Value.definition?, horigin, hw, ho]
    · simp [definition?, Value.definition?, horigin, hw, hinstruction]

/-- **Building makes a body grow.** -/
theorem extends_construct (hb : b.WellFormed) (step : Construction) :
    Extends b (b.construct step) := by
  cases step with
  | block => exact ⟨rfl, fun _ hv => hv, fun _ _ => rfl, fun _ _ => rfl, fun _ _ => rfl,
      fun _ => List.prefix_refl _⟩
  | edge source target =>
    simp only [construct]
    cases hadd : b.addEdge source target with
    | error e => exact .refl b
    | ok b' => exact extends_addEdge hb hadd
  | instruction k operation inputs out =>
    simp only [construct]
    cases hadd : b.append k operation inputs out with
    | error e => exact .refl b
    | ok r => exact extends_append hb hadd
  | phi k type =>
    simp only [construct]
    cases hadd : b.addPhi k type with
    | error e => exact .refl b
    | ok r => exact extends_addPhi hb hadd
  | operand phi operand =>
    simp only [construct]
    cases hadd : b.addPhiOperand phi operand with
    | error e => exact .refl b
    | ok b' => exact extends_addPhiOperand hadd

theorem extends_foldl (hb : b.Built) (steps : List Construction) :
    Extends b (steps.foldl construct b) := by
  induction steps generalizing b with
  | nil => exact .refl b
  | cons step steps ih =>
    exact (extends_construct hb.wellFormed step).trans (ih (hb.construct step))

end JvmLowering.Body
