import JvmLowering.Proofs.Typing.Iteration

/-!
# Types and the numbers of blocks, instructions and values

The numbers of the parts of a body fix the order in which an analysis looks at the values. Without
casts this makes no difference as long as array reads end with what their arrays give. It does make
one when an array is `null` at first: a read of `null` gives any value, and this stays when the
array moves up to a type whose elements are known.

* `Body.Renumbers`: two bodies that differ in numbers alone;
* `infer_renumbered`: when they have the same types;
* `infer_depends_on_numbers`: that they have not always.
-/

namespace JvmLowering

/-! ### Bodies that differ in numbers alone -/

/-- Where the value comes from, with other numbers. -/
def Origin.renumber (values : ValueId → ValueId) (instructions : InsnId → InsnId)
    (blocks : BlockId → BlockId) : Origin → Origin
  | .instruction i => .instruction (instructions i)
  | .phi k operands => .phi (blocks k) (operands.map values)
  | .stack slot definition => .stack slot (definition.map instructions)

/-- The second body is the first one with other numbers. -/
structure Body.Renumbers (values : ValueId ≃ ValueId) (instructions : InsnId ≃ InsnId)
    (blocks : BlockId ≃ BlockId) (b b' : Body) :
    Prop where
  method : b'.method = b.method
  value : ∀ v ∈ b.values, values v ∈ b'.values ∧ (b'.value (values v)).type = (b.value v).type ∧
    (b'.value (values v)).origin = (b.value v).origin.renumber values instructions blocks
  instruction : ∀ i ∈ b.instructions, instructions i ∈ b'.instructions ∧
    (b'.instruction (instructions i)).operation = (b.instruction i).operation ∧
    (b'.instruction (instructions i)).inputs = (b.instruction i).inputs.map values ∧
    (b'.instruction (instructions i)).output = (b.instruction i).output.map values ∧
    (b'.instruction (instructions i)).block = blocks (b.instruction i).block
  block : ∀ k ∈ b.blocks, blocks k ∈ b'.blocks ∧
    (b'.block (blocks k)).instructions = (b.block k).instructions.map instructions ∧
    (b'.block (blocks k)).predecessors = (b.block k).predecessors.map blocks
  /-- The second body has nothing else. -/
  value_symm : ∀ v ∈ b'.values, values.symm v ∈ b.values
  instruction_symm : ∀ i ∈ b'.instructions, instructions.symm i ∈ b.instructions
  block_symm : ∀ k ∈ b'.blocks, blocks.symm k ∈ b.blocks

namespace Body

variable {values : ValueId ≃ ValueId} {instructions : InsnId ≃ InsnId} {blocks : BlockId ≃ BlockId}
  {b b' : Body}

instance : Decidable (b.Renumbers values instructions blocks b') :=
  decidable_of_iff (_ ∧ _ ∧ _ ∧ _ ∧ _ ∧ _ ∧ _)
    ⟨fun ⟨hm, hv, hi, hk, hv', hi', hk'⟩ => ⟨hm, hv, hi, hk, hv', hi', hk'⟩,
      fun ⟨hm, hv, hi, hk, hv', hi', hk'⟩ => ⟨hm, hv, hi, hk, hv', hi', hk'⟩⟩

theorem Renumbers.castFree (r : b.Renumbers values instructions blocks b') (h : b.CastFree) :
    b'.CastFree := by
  intro i hi t
  have hback := r.instruction_symm i hi
  obtain ⟨-, hop, -⟩ := r.instruction _ hback
  rw [instructions.apply_symm_apply] at hop
  rw [hop]
  exact h _ hback t

end Body

namespace FlowTyping

open FlowType Propagation

variable {g : Hierarchy} {b b' : Body} {values : ValueId ≃ ValueId} {instructions : InsnId ≃ InsnId}
  {blocks : BlockId ≃ BlockId} {settings : Settings} {types : ValueId → FlowType}
  {v p u array : ValueId} {i : InsnId}

theorem firstInput_bottom (insn : Instruction) : firstInput (fun _ => .bottom) insn = .bottom := by
  unfold firstInput
  cases insn.inputs.head? <;> rfl

/-- An instruction gives its output the same with other numbers. -/
theorem outputRule_renumbers (r : b.Renumbers values instructions blocks b') (hv : v ∈ b.values)
    (hi : i ∈ b.instructions) :
    outputRule g b' (b'.instruction (instructions i))
      (values v) = (outputRule g b (b.instruction i) v).map values := by
  obtain ⟨-, htype, -⟩ := r.value v hv
  obtain ⟨-, hop, hinputs, -, -⟩ := r.instruction i hi
  have hown : outputType g b' (fun _ => .bottom) (b'.instruction (instructions i)) (values v) =
      outputType g b (fun _ => .bottom) (b.instruction i) v := by
    unfold outputType
    rw [hop]
    simp only [firstInput_bottom, Body.argumentType, htype, r.method]
  unfold outputRule
  rw [hop, hinputs, List.head?_map]
  split
  · cases (b.instruction i).inputs.head? <;> rfl
  · cases (b.instruction i).inputs.head? <;> rfl
  · cases (b.instruction i).inputs.head? <;> rfl
  · rw [hown]
    rfl

theorem rule_renumbers (hb : b.WellFormed) (r : b.Renumbers values instructions blocks b')
    (v : ValueId) :
    rule g b' (values v) = (rule g b v).map values := by
  by_cases hv : v ∈ b.values
  · obtain ⟨-, -, horigin⟩ := r.value v hv
    cases ho : (b.value v).origin with
    | phi k operands => simp [rule, horigin, ho, Origin.renumber, Rule.map]
    | instruction i =>
      have h := outputRule_renumbers (g := g) r hv (hb.output_of_origin v i ho).1
      simpa [rule, Body.definition?, Value.definition?, horigin, ho, Origin.renumber] using h
    | stack slot definition => exact absurd ho (hb.not_stack v hv slot definition)
  · have hv' : values v ∉ b'.values := by
      intro h
      have hback := r.value_symm _ h
      rw [values.symm_apply_apply] at hback
      exact hv hback
    rw [rule_of_notMem hv, rule_of_notMem hv']
    rfl

/-! ### Array reads -/

/-- Every array read has what can be read from the array in the end. -/
def ReadsExact (b : Body) (types : ValueId → FlowType) : Prop :=
  ∀ i v array, (b.instruction i).output = some v → (b.instruction i).operation = .arrayGet →
    (b.instruction i).inputs.head? = some array → types v = (types array).arrayGet

/-- The first value is a phi with the second one as an operand, or a copy of it. -/
def PassesOn (b : Body) (p u : ValueId) : Prop :=
  u ∈ b.operands p ∨ ∃ i, (b.instruction i).output = some p ∧
    ((b.instruction i).operation = .load ∨ (b.instruction i).operation = .store) ∧
    (b.instruction i).inputs.head? = some u

/-- No value that is `null` by itself gets to an array that is read. -/
def NullFreeReads (g : Hierarchy) (b : Body) : Prop :=
  ∀ i v array, (b.instruction i).output = some v → (b.instruction i).operation = .arrayGet →
    (b.instruction i).inputs.head? = some array →
    ∀ source, Relation.ReflTransGen (PassesOn b) array source →
    candidate g b (fun _ => .bottom) source ≠ .null

/-- A rule other than that of a phi comes from an instruction. -/
theorem exists_output_of_rule (hb : b.WellFormed) (hrule : rule g b v ≠ .fixed .bottom) :
    rule g b v = .merge (b.operands v) ∨ ∃ i, (b.instruction i).output = some v ∧
      rule g b v = outputRule g b (b.instruction i) v := by
  by_cases hv : v ∈ b.values
  · cases ho : (b.value v).origin with
    | phi k operands => exact Or.inl (by simp [rule, ho, Body.operands, Value.operands])
    | instruction i =>
      obtain ⟨-, hout⟩ := hb.output_of_origin v i ho
      exact Or.inr ⟨i, hout, rule_of_output hb hout⟩
    | stack slot definition => exact absurd ho (hb.not_stack v hv slot definition)
  · exact absurd (rule_of_notMem hv) hrule

theorem rule_eq_element_iff (hb : b.WellFormed) : rule g b v = .element array ↔
    ∃ i, (b.instruction i).output = some v ∧ (b.instruction i).operation = .arrayGet ∧
      (b.instruction i).inputs.head? = some array := by
  constructor
  · intro h
    rcases exists_output_of_rule hb (by rw [h]; exact Rule.noConfusion) with hphi | ⟨i, hout, hmade⟩
    · rw [h] at hphi
      exact Rule.noConfusion hphi
    · rw [h] at hmade
      unfold outputRule at hmade
      split at hmade
      · rename_i hop
        refine ⟨i, hout, hop, ?_⟩
        cases hinput : (b.instruction i).inputs.head? with
        | none => simp [hinput] at hmade
        | some array' =>
          rw [hinput] at hmade
          exact congrArg some (Rule.element.inj hmade).symm
      all_goals exact Rule.noConfusion hmade
  · rintro ⟨i, hout, hop, hinput⟩
    rw [rule_of_output hb hout, outputRule, hop, hinput]
    rfl

theorem passesOn_of_merge {merged : List ValueId} (hb : b.WellFormed)
    (h : rule g b p = .merge merged) (hu : u ∈ merged) :
    PassesOn b p u := by
  rcases exists_output_of_rule hb (by rw [h]; exact Rule.noConfusion) with hphi | ⟨i, hout, hmade⟩
  · rw [h] at hphi
    exact Or.inl (Rule.merge.inj hphi ▸ hu)
  · rw [h] at hmade
    have hinput : merged = (b.instruction i).inputs.head?.toList →
        (b.instruction i).inputs.head? = some u := by
      rintro rfl
      exact Option.mem_toList.1 hu
    unfold outputRule at hmade
    split at hmade
    · cases hhead : (b.instruction i).inputs.head? <;> simp [hhead] at hmade
    · exact Or.inr ⟨i, hout, Or.inl ‹_›, hinput (Rule.merge.inj hmade)⟩
    · exact Or.inr ⟨i, hout, Or.inr ‹_›, hinput (Rule.merge.inj hmade)⟩
    · exact Rule.noConfusion hmade

theorem exact_iff_readsExact (hb : b.WellFormed) : Exact (rule g b) types ↔ ReadsExact b types :=
  ⟨fun h i v array hout hop hinput => h v array ((rule_eq_element_iff hb).2 ⟨i, hout, hop, hinput⟩),
    fun h v array hv => by
      obtain ⟨i, hout, hop, hinput⟩ := (rule_eq_element_iff hb).1 hv
      exact h i v array hout hop hinput⟩

theorem NullFreeReads.nullFree (hb : b.WellFormed) (hcasts : b.CastFree) (h : NullFreeReads g b)
    (hv : rule g b v = .element array) : NullFree (rule g b) array := by
  intro source hpath hnull
  obtain ⟨i, hout, hop, hinput⟩ := (rule_eq_element_iff hb).1 hv
  have hpasses : Relation.ReflTransGen (PassesOn b) array source := by
    refine Relation.ReflTransGen.mono ?_ _ _ hpath
    rintro p u ⟨merged, hp, hu⟩
    exact passesOn_of_merge hb hp hu
  refine h i v array hout hop hinput source hpasses ?_
  rw [candidate_eq_eval hcasts, hnull]
  rfl

theorem exact_comp_iff (hrules : ∀ v, rule g b' (values v) = (rule g b v).map values) :
    Exact (rule g b) (types ∘ values) ↔ Exact (rule g b') types := by
  constructor
  · intro h v array hv
    have hrule := hrules (values.symm v)
    rw [values.apply_symm_apply, hv] at hrule
    cases hr : rule g b (values.symm v) with
    | fixed t => simp [hr, Rule.map] at hrule
    | merge merged => simp [hr, Rule.map] at hrule
    | element array' =>
      rw [hr] at hrule
      have hread := h _ _ hr
      rw [Function.comp_apply, Function.comp_apply, values.apply_symm_apply,
        ← Rule.element.inj hrule] at hread
      exact hread
  · intro h v array hv
    exact h _ _ (by rw [hrules, hv]; rfl)

/-- **Numbers make no difference without casts where array reads are exact.** Exact types are the
least that any numbers give, other numbers give the same exactly if they give exact types too, and
they do so if no `null` gets to an array that is read. -/
theorem infer_renumbered (settings settings' : Settings) (hb : b.Built) (hb' : b'.Built)
    (hcasts : b.CastFree) (r : b.Renumbers values instructions blocks b') :
    ∃ t t', (infer g settings b).result = .ok t ∧ (infer g settings' b').result = .ok t' ∧
      (ReadsExact b t.typeOf →
        (∀ v, le g (t.typeOf v) (t'.typeOf (values v)) = true) ∧
          (ReadsExact b' t'.typeOf ↔ ∀ v, t'.typeOf (values v) = t.typeOf v)) ∧
      (NullFreeReads g b →
        ReadsExact b t.typeOf ∧ ReadsExact b' t'.typeOf ∧ ∀ v,
          t'.typeOf (values v) = t.typeOf v) := by
  have hw := hb.wellFormed
  have hw' := hb'.wellFormed
  have hcasts' := r.castFree hcasts
  have hrules : ∀ v, rule g b' (values v) = (rule g b v).map values := rule_renumbers hw r
  obtain ⟨t, ht, -, -⟩ := infer_ok (g := g) hw settings
  obtain ⟨t', ht', -, -⟩ := infer_ok (g := g) hw' settings'
  have hsolution := infer_solution hw hcasts ht
  -- read back over the numbers, the other types solve the same equations
  have hsolution' : Solution g (rule g b) (t'.typeOf ∘ values) := by
    have h := infer_solution hw' hcasts' ht'
    refine ⟨h.iterated.comp values hrules, fun v => ?_⟩
    rw [← Rule.eval_map, ← hrules]
    exact h.saturated (values v)
  have hexact' : ReadsExact b' t'.typeOf ↔ Exact (rule g b) (t'.typeOf ∘ values) :=
    (exact_iff_readsExact (g := g) hw').symm.trans (exact_comp_iff hrules).symm
  -- two exact solutions cover each other
  have hsame : Exact (rule g b) t.typeOf → Exact (rule g b) (t'.typeOf ∘ values) →
      ∀ v, t'.typeOf (values v) = t.typeOf v :=
    fun hexact hother v =>
      (hsolution'.covered_of_exact hsolution hother v).antisymm
        (hsolution.covered_of_exact hsolution' hexact v)
  refine ⟨t, t', ht, ht', fun hreads => ?_, fun hfree => ?_⟩
  · have hexact := (exact_iff_readsExact (g := g) hw).2 hreads
    refine ⟨fun v => le_iff_covers.2 (hsolution.covered_of_exact hsolution' hexact v), ?_⟩
    rw [hexact']
    refine ⟨hsame hexact, fun heq => ?_⟩
    rwa [show t'.typeOf ∘ values = t.typeOf from funext heq]
  · have hnull := fun v array (hv : rule g b v = .element array) => hfree.nullFree hw hcasts hv
    have hexact := hsolution.exact_of_nullFree hnull
    have hother := hsolution'.exact_of_nullFree hnull
    exact ⟨(exact_iff_readsExact hw).1 hexact, hexact'.2 hother, hsame hexact hother⟩

/-- A hierarchy with a method that takes an array of `int`. -/
def readHierarchy : Hierarchy :=
  (Hierarchy.platform.addMethod ⟨.first, .init, ⟨[.ref (.array 0 (.base .int))], none⟩,
    .ofList []⟩).2

/-- A block reads from a phi into which some source comes, and a new array that goes through a phi
of another block first. -/
def mergedRead (source : Operation) (type : DeclaredType ClassId) (reading passing : BlockId) :
    Body := .ofSteps ⟨0⟩
  [.block, .block, .block, .edge ⟨0⟩ reading, .edge ⟨0⟩ passing, .edge passing reading,
   .instruction ⟨0⟩ source [] (some type),
   .instruction ⟨0⟩ (.constant (.number (.int 0))) [] (some (.field (.base .int))),
   .instruction ⟨0⟩ (.newArray (.array 0 (.base .int))) [⟨1⟩]
   (some (.field (.ref (.array 0 (.base .int))))),
   .instruction ⟨0⟩ (.branch .eq) [⟨1⟩] none,
   .phi passing (.field (.ref (.array 0 (.base .int)))), .instruction passing .goto [] none,
   .phi reading (.field (.ref (.array 0 (.base .int)))),
   .instruction reading .arrayGet [⟨4⟩, ⟨1⟩] (some (.field (.base .int))),
   .instruction reading .ret [] none,
   .operand ⟨3⟩ ⟨2⟩, .operand ⟨4⟩ ⟨0⟩, .operand ⟨4⟩ ⟨3⟩]

/-- The source is the argument. -/
def argumentRead : BlockId → BlockId → Body :=
  mergedRead (.argument 1) (.field (.ref (.array 0 (.base .int))))

/-- The source is `null`. -/
def nullRead : BlockId → BlockId → Body := mergedRead (.constant .null) .null

/-- A read from the argument or a new array has the same type, whichever of the two blocks comes
first. -/
theorem infer_renumbered_argumentRead :
    ∃ t t', (infer readHierarchy {} (argumentRead ⟨2⟩ ⟨1⟩)).result = .ok t ∧
      (infer readHierarchy {} (argumentRead ⟨1⟩ ⟨2⟩)).result = .ok t' ∧
        ReadsExact (argumentRead ⟨2⟩ ⟨1⟩) t.typeOf ∧
      ReadsExact (argumentRead ⟨1⟩ ⟨2⟩) t'.typeOf ∧ ∀ v, t'.typeOf v = t.typeOf v := by
  have hb : ∀ reading passing, (argumentRead reading passing).Built :=
    fun _ _ => Body.built_ofSteps _ _
  have hr : (argumentRead ⟨2⟩ ⟨1⟩).Renumbers (.refl _) (.refl _) (.swap ⟨1⟩ ⟨2⟩)
    (argumentRead ⟨1⟩ ⟨2⟩) := by decide +kernel
  obtain ⟨t, t', ht, ht', -, hfree⟩ :=
    infer_renumbered (g := readHierarchy) {} {} (hb ⟨2⟩ ⟨1⟩) (hb ⟨1⟩ ⟨2⟩) (by decide +kernel) hr
  have hnull : ∀ v ∈ (argumentRead ⟨2⟩ ⟨1⟩).values,
      candidate readHierarchy (argumentRead ⟨2⟩ ⟨1⟩) (fun _ => .bottom) v ≠ .null := by
    decide +kernel
  have hsources : NullFreeReads readHierarchy (argumentRead ⟨2⟩ ⟨1⟩) := by
    intro _ _ _ _ _ _ source _
    by_cases hsource : source ∈ (argumentRead ⟨2⟩ ⟨1⟩).values
    · exact hnull source hsource
    · rw [candidate_of_notMem hsource]
      exact FlowType.noConfusion
  obtain ⟨hreads, hreads', hsame⟩ := hfree hsources
  exact ⟨t, t', ht, ht', hreads, hreads', hsame⟩

/-- A read from `null` or a new array has not. -/
theorem infer_depends_on_numbers :
    (nullRead ⟨2⟩ ⟨1⟩).Built ∧ (nullRead ⟨1⟩ ⟨2⟩).Built ∧ (nullRead ⟨2⟩ ⟨1⟩).CastFree ∧
      (nullRead ⟨2⟩ ⟨1⟩).Renumbers (.refl _) (.refl _) (.swap ⟨1⟩ ⟨2⟩) (nullRead ⟨1⟩ ⟨2⟩) ∧
      ∃ t t', (infer readHierarchy {} (nullRead ⟨2⟩ ⟨1⟩)).result = .ok t ∧
        (infer readHierarchy {} (nullRead ⟨1⟩ ⟨2⟩)).result = .ok t' ∧ t.typeOf ⟨5⟩ = .prim .int ∧
          t'.typeOf ⟨5⟩ = .top := by
  refine ⟨Body.built_ofSteps _ _, Body.built_ofSteps _ _, by decide +kernel, by decide +kernel, ?_⟩
  have hread : ∃ t, (infer readHierarchy {} (nullRead ⟨2⟩ ⟨1⟩)).result = .ok t ∧
      decide (t.typeOf ⟨5⟩ = .prim .int) = true :=
    infer_of_runFor_any (n := 10) (by decide +kernel)
  have hread' : ∃ t, (infer readHierarchy {} (nullRead ⟨1⟩ ⟨2⟩)).result = .ok t ∧
      decide (t.typeOf ⟨5⟩ = .top) = true :=
    infer_of_runFor_any (n := 10) (by decide +kernel)
  obtain ⟨t, ht, htype⟩ := hread
  obtain ⟨t', ht', htype'⟩ := hread'
  exact ⟨t, t', ht, ht', of_decide_eq_true htype, of_decide_eq_true htype'⟩

end FlowTyping

end JvmLowering
