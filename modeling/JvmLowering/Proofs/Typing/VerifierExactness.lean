import JvmLowering.Proofs.Typing.FixedPoint
import JvmLowering.Typing.VerifierTyping

/-!
# The verifier's types are total and exact

While the types of references are propagated, only references are looked at and only they have a
type, and it is that of a reference. So no update is refused, every reference has a type in the end,
and nothing else has one. A phi has the join of the references that feed it through phis of
references.

* `Body.ReferenceArguments`: what must hold of the arguments of a body;
* `Tidy`: what every step keeps;
* `compute_ok`: the analysis never fails;
* `compute_exact`: what it finds.
-/

namespace JvmLowering

/-! ### Arguments that are references -/

/-- The type of the parameter that an argument stands for. The receiver has none, and neither has
what is beyond the signature. -/
def MethodData.parameter? (m : MethodData) (index : Nat) : Option (FieldType ClassId) :=
  if m.isStatic then m.type.parameters[index]?
  else
    match index with
    | 0 => none
    | position + 1 => m.type.parameters[position]?

/-- Arguments that are declared references stand for parameters that are references, if for any. -/
def Body.ReferenceArguments (g : Hierarchy) (b : Body) : Prop :=
  ∀ i ∈ b.instructions, ∀ index v, (b.instruction i).operation = .argument index →
    (b.instruction i).output = some v →
    (b.value v).type.isReference = true → ∀ t ∈ (g.method b.method).parameter? index,
    t.isReference = true

theorem Body.referenceArguments_iff {g : Hierarchy} {b : Body} : b.ReferenceArguments g ↔
    ∀ i ∈ b.instructions.indices, ∀ v ∈ (b.instruction i).output,
      (b.value v).type.isReference = true →
      (match (b.instruction i).operation with
        | .argument index => ((g.method b.method).parameter? index).all (·.isReference)
        | _ => true) = true := by
  constructor
  · intro h i hi v hv href
    split
    · rename_i index hop
      rw [Option.all_eq_true]
      exact h i (Table.mem_indices.1 hi) index v hop hv href
    · rfl
  · intro h i hi index v hop hv href
    have hall := h i (Table.mem_indices.2 hi) v hv href
    rw [hop] at hall
    exact (Option.all_eq_true _ _).1 hall

instance (g : Hierarchy) (b : Body) : Decidable (b.ReferenceArguments g) :=
  decidable_of_iff _ Body.referenceArguments_iff.symm

namespace FlowType

variable {g : Hierarchy} {s t : FlowType} {ts : List FlowType}

theorem isReference_ofField {t : FieldType ClassId} (nullable : Bool) (h : t.isReference = true) :
    (ofField nullable t).isReference = true := by
  cases t with
  | base b => exact Bool.noConfusion h
  | ref r => rfl

theorem isReference_ofDeclared {t : DeclaredType ClassId} (nullable : Bool)
    (h : t.isReference = true) :
    (ofDeclared nullable t).isReference = true := by
  cases t with
  | null => rfl
  | field t => exact isReference_ofField nullable h

theorem ofField_ne_bottom (nullable : Bool) (t : FieldType ClassId) :
    ofField nullable t ≠ bottom := by
  cases t <;> exact FlowType.noConfusion

theorem ofDeclared_ne_bottom (nullable : Bool) (t : DeclaredType ClassId) :
    ofDeclared nullable t ≠ bottom := by
  cases t with
  | null => exact FlowType.noConfusion
  | field t => exact ofField_ne_bottom nullable t

theorem ne_bottom_of_isReference (h : t.isReference = true) : t ≠ bottom := by
  rintro rfl
  exact Bool.noConfusion h

/-- A reference, or nothing yet. -/
def ReferenceOrBottom (t : FlowType) : Prop := t.isReference = true ∨ t = bottom

theorem ReferenceOrBottom.join (hs : s.ReferenceOrBottom) (ht : t.ReferenceOrBottom) :
    (s.join g t).ReferenceOrBottom := by
  rcases hs with hs | rfl
  · rcases ht with ht | rfl
    · exact Or.inl (isReference_join hs ht).1
    · refine Or.inl ?_
      cases s <;> simp_all [FlowType.join, isReference]
  · exact ht

theorem ReferenceOrBottom.joinAll (h : ∀ t ∈ ts, t.ReferenceOrBottom) :
    (joinAll g ts).ReferenceOrBottom :=
  List.foldlRecOn ts (FlowType.join g) (Or.inr rfl) fun _ hs t ht => hs.join (h t ht)

/-- What moves up from a reference is a reference. -/
theorem ReferenceOrBottom.isReference (ht : t.ReferenceOrBottom) (hs : s.isReference = true)
    (h : Covers g s t) :
    t.isReference = true := by
  refine ht.resolve_right ?_
  rintro rfl
  cases s <;> simp_all [FlowType.isReference, Covers]

end FlowType

namespace TypeMap

variable (t : TypeMap) (v w : ValueId) (type : FlowType)

theorem get_eq_getD : t.get v = (t.get? v).getD .bottom := by
  simp [get, get?, Std.TreeMap.getD_eq_getD_getElem?]

theorem get?_set : (t.set v type).get? w = if v = w then some type else t.get? w := by
  simp [set, get?, Std.TreeMap.getElem?_insert]

end TypeMap

theorem Body.argumentType_ne_bottom (g : Hierarchy) (b : Body) (index : Nat) (v : ValueId) :
    b.argumentType g index v ≠ .bottom := by
  unfold argumentType
  simp only
  split
  · split
    · exact FlowType.ofField_ne_bottom true _
    · exact FlowType.ofDeclared_ne_bottom true _
  · split
    · exact FlowType.noConfusion
    · split
      · exact FlowType.ofField_ne_bottom true _
      · exact FlowType.ofDeclared_ne_bottom true _

theorem Body.isReference_argumentType {g : Hierarchy} {b : Body} {index : Nat} {v : ValueId}
    (hv : (b.value v).type.isReference = true)
    (h : ∀ t ∈ (g.method b.method).parameter? index, t.isReference = true) :
    (b.argumentType g index v).isReference = true := by
  unfold MethodData.parameter? at h
  unfold argumentType
  cases hstatic : (g.method b.method).isStatic with
  | true =>
    simp only [hstatic, if_true] at h ⊢
    split
    · exact FlowType.isReference_ofField true (h _ ‹_›)
    · exact FlowType.isReference_ofDeclared true hv
  | false =>
    simp only [hstatic, Bool.false_eq_true, if_false] at h ⊢
    cases index with
    | zero => rfl
    | succ position =>
      simp only at h ⊢
      split
      · exact FlowType.isReference_ofField true (h _ ‹_›)
      · exact FlowType.isReference_ofDeclared true hv

namespace VerifierTyping

open FlowType Propagation

variable {g : Hierarchy} {b : Body} {s t : State} {v w p : ValueId} {i : InsnId}
  {types types' : ValueId → FlowType}

/-! ### Candidates -/

theorem isReference_ownType (hv : isTracked b v = true) (insn : Instruction) :
    (ownType b insn v).isReference = true := by
  have hdeclared : (FlowType.ofDeclared true (b.value v).type).isReference = true :=
    isReference_ofDeclared true hv
  unfold ownType
  simp only
  split
  · rfl
  · rfl
  · rfl
  · rfl
  · rfl
  · split
    · split
      · assumption
      · exact hdeclared
    · exact hdeclared
  · exact hdeclared

theorem candidate_of_phi (hp : (b.value p).isPhi = true) (types : ValueId → FlowType) :
    candidate g b types p = joinAll g ((b.operands p).map types) := by
  obtain ⟨k, ho⟩ := Body.origin_of_isPhi hp
  simp [candidate, ho]

theorem candidate_referenceOrBottom (h : ∀ u, (types u).ReferenceOrBottom)
    (hv : isTracked b v = true) :
    (candidate g b types v).ReferenceOrBottom := by
  have hinput : ∀ insn, (FlowTyping.firstInput types insn).ReferenceOrBottom := by
    intro insn
    unfold FlowTyping.firstInput
    cases insn.inputs.head? with
    | none => exact Or.inr rfl
    | some u => exact h u
  unfold candidate
  split
  · refine ReferenceOrBottom.joinAll fun t ht => ?_
    obtain ⟨u, -, rfl⟩ := List.mem_map.1 ht
    exact h u
  · split
    · exact Or.inr rfl
    · split
      · exact hinput _
      · exact hinput _
      · exact Or.inl (isReference_ofDeclared true hv)

theorem flow_complete (hb : b.WellFormed) :
    (flow g b).Complete (fun v => isTracked b v = true) := by
  intro types types' v w hsame htracked hw
  simp only [flow, dependents, List.mem_append, not_or] at hw
  obtain ⟨hreader, hphi⟩ := hw
  show candidate g b types' w = candidate g b types w
  unfold candidate
  split
  -- a phi hangs on its operands, all of which have it as a reader
  · rename_i l operands ho
    have hmap := FlowTyping.map_operands_congr hb hsame fun h =>
      hphi (List.mem_filter.2 ⟨Std.TreeSet.mem_toList.2 h, htracked⟩)
    rw [Body.operands, Value.operands, ho] at hmap
    exact congrArg (joinAll g) hmap
  · split
    · rfl
    · rename_i insn hdef
      obtain ⟨i, hi, rfl⟩ := Option.map_eq_some_iff.1 hdef
      -- only loads and stores look at an input, and its readers pass it on to their outputs
      have hinput : (b.instruction i).operation = .load ∨ (b.instruction i).operation = .store →
          FlowTyping.firstInput types' (b.instruction i) =
          FlowTyping.firstInput types (b.instruction i) := by
        intro hop
        refine FlowTyping.firstInput_congr hb hsame fun h => ?_
        refine hreader (List.mem_filterMap.2 ⟨i, Std.TreeSet.mem_toList.2 h, ?_⟩)
        have hout := (hb.output_of_definition hi).2
        rcases hop with hop | hop <;>
          simp [inferredOutput?, hop, Operation.isArgument, Operation.hasOwnVerificationType,
            hout, htracked]
      split
      · exact hinput (Or.inl ‹_›)
      · exact hinput (Or.inr ‹_›)
      · rfl

theorem tracked_of_dependents (hb : b.WellFormed) (v : ValueId) :
    ∀ w ∈ dependents b v, w ∈ b.values ∧ isTracked b w = true := by
  intro w hw
  rcases List.mem_append.1 hw with hw | hw
  · obtain ⟨i, -, hi⟩ := List.mem_filterMap.1 hw
    unfold inferredOutput? at hi
    split at hi
    · simp at hi
    · obtain ⟨hout, htracked⟩ := Option.filter_eq_some_iff.1 hi
      exact ⟨(hb.origin_of_output i w hout).1, htracked⟩
  · obtain ⟨hreader, htracked⟩ := List.mem_filter.1 hw
    have hphi := Body.isPhi_of_operand
      ((hb.mem_phiReaders v w).1 (Std.TreeSet.mem_toList.1 hreader))
    exact ⟨Body.mem_values_of_isPhi hphi, htracked⟩

/-! ### No update is refused -/

/-- Only references are looked at, only they have a type, and it is that of a reference. -/
structure Tidy (b : Body) (s : State) : Prop where
  queued : Queued (fun v => v ∈ b.values ∧ isTracked b v = true) s
  entries : ∀ v type, s.types.get? v = some type → (v ∈ b.values ∧ isTracked b v = true) ∧
    type.ReferenceOrBottom

theorem Tidy.get (h : Tidy b s) (v : ValueId) : (s.types.get v).ReferenceOrBottom := by
  rw [TypeMap.get_eq_getD]
  cases hv : s.types.get? v with
  | none => exact Or.inr rfl
  | some type => exact (h.entries v type hv).2

theorem Tidy.get_of_untracked (h : Tidy b s) (hv : isTracked b v = false) :
    s.types.get v = .bottom := by
  rw [TypeMap.get_eq_getD]
  cases hentry : s.types.get? v with
  | none => rfl
  | some type =>
    rw [(h.entries v type hentry).1.2] at hv
    exact Bool.noConfusion hv

/-- A reference may get a type. -/
theorem Tidy.set {type : FlowType} (h : Tidy b s) (hv : v ∈ b.values)
    (htracked : isTracked b v = true) (htype : type.ReferenceOrBottom) :
    Tidy b { s with types := s.types.set v type } := by
  refine ⟨⟨h.queued.queue, h.queued.mem⟩, fun w type' hw => ?_⟩
  rw [TypeMap.get?_set] at hw
  split at hw
  · rename_i hvw
    subst hvw
    exact ⟨⟨hv, htracked⟩, Option.some.inj hw ▸ htype⟩
  · exact h.entries w type' hw

theorem Tidy.step (hb : b.WellFormed) (h : Tidy b s) (hstep : step g (flow g b) s = .continued t) :
    Tidy b t := by
  have hqueued := h.queued.step (tracked_of_dependents hb) hstep
  obtain ⟨v, work, hpop, ⟨-, htypes, -⟩ | ⟨htypes, -⟩⟩ := step_continued hstep
  · exact ⟨hqueued, htypes ▸ h.entries⟩
  · obtain ⟨hv, htracked⟩ := h.queued.mem_of_pop? hpop
    refine ⟨hqueued, htypes ▸ (h.set hv htracked ?_).entries⟩
    exact (h.get v).join (candidate_referenceOrBottom h.get htracked)

theorem Tidy.step_ne_refused (h : Tidy b s) (e : Error) :
    Propagation.step g (flow g b) s ≠ .refused e := by
  intro hrefused
  obtain ⟨v, work, hpop, hbound | hrefuse⟩ := step_refused hrefused
  · exact Nat.not_lt.2 hbound (h.queued.mem_of_pop? hpop).1
  · have hnew :=
      (h.get v).join (g := g)
        (candidate_referenceOrBottom (g := g) h.get (h.queued.mem_of_pop? hpop).2)
    simp only [flow, refuse] at hrefuse
    rw [if_pos (by rcases hnew with hnew | hnew <;> simp [hnew])] at hrefuse
    simp at hrefuse

theorem Tidy.run_ok (hb : b.WellFormed) (h : Tidy b s) :
    ∃ t, run g (flow g b) s = (t, none) ∧ Tidy b t := by
  have hstep : ∀ s t, Tidy b s → Propagation.step g (flow g b) s = .continued t → Tidy b t :=
    fun _ _ hs hst => hs.step hb hst
  obtain ⟨t, ht⟩ := Propagation.run_ok hstep (fun _ e hs => hs.step_ne_refused e) h
  exact ⟨t, ht, (run_preserves hstep h ht).1⟩

/-! ### Where the analysis starts -/

/-- What an instruction adds at the start: nothing unless its output is a reference, which gets a
type, that of a reference if the arguments are such, or is queued. -/
theorem seedInstruction_cases (hb : b.WellFormed) (s : State) (i : InsnId) :
    (seedInstruction g b s (b.instruction i) = s ∧ ∀ v, (b.instruction i).output = some v →
      isTracked b v = false) ∨
      ∃ v ∈ b.values, (b.instruction i).output = some v ∧ isTracked b v = true ∧
        (b.value v).isPhi = false ∧
        ((∃ type : FlowType, type ≠ .bottom ∧ (b.ReferenceArguments g → type.isReference = true) ∧
            seedInstruction g b s (b.instruction i) = { s with types := s.types.set v type }) ∨
          ((b.instruction i).operation = .load ∨ (b.instruction i).operation = .store) ∧
            seedInstruction g b s (b.instruction i) = { s with work := (s.work.push v).2 }) := by
  unfold seedInstruction
  cases hfilter : (b.instruction i).output.filter (isTracked b) with
  | none =>
    refine Or.inl ⟨rfl, fun v hv => ?_⟩
    simpa [hv] using hfilter
  | some v =>
    obtain ⟨hout, htracked⟩ := Option.filter_eq_some_iff.1 hfilter
    obtain ⟨hv, horigin⟩ := hb.origin_of_output i v hout
    have hi := (hb.output_of_origin v i horigin).1
    refine Or.inr ⟨v, hv, hout, htracked, by simp [Value.isPhi, horigin], ?_⟩
    simp only
    split
    · rename_i index hop
      refine Or.inl ⟨_, Body.argumentType_ne_bottom g b index v, fun hargs => ?_, rfl⟩
      exact Body.isReference_argumentType htracked (hargs i hi index v hop hout htracked)
    · rename_i hop
      split
      · have href := isReference_ownType htracked (b.instruction i)
        exact Or.inl ⟨_, ne_bottom_of_isReference href, fun _ => href, rfl⟩
      · rename_i hown
        refine Or.inr ⟨?_, rfl⟩
        cases hoperation : (b.instruction i).operation <;>
          simp_all [Operation.hasOwnVerificationType]

/-- At the start phis have nothing. -/
structure Starting (b : Body) (s : State) : Prop where
  tidy : Tidy b s
  phi : ∀ p, (b.value p).isPhi = true → s.types.get p = .bottom

/-- A reference that is a phi is queued, and all others have a type unless they are copies. -/
def Seeded (b : Body) (s : State) (v : ValueId) : Prop :=
  isTracked b v = true →
    ((b.value v).isPhi = true → v ∈ s.work.toList) ∧
      ((b.value v).isPhi = false → (s.types.get v).isReference = true ∨
        ∃ i, (b.instruction i).output = some v ∧
          ((b.instruction i).operation = .load ∨ (b.instruction i).operation = .store))

theorem seedInstruction_seeded (hb : b.WellFormed) (hargs : b.ReferenceArguments g)
    (hs : Starting b s) :
    Starting b (seedInstruction g b s (b.instruction i)) ∧
      ∀ v, (b.instruction i).output = some v ∨ Seeded b s v →
        Seeded b (seedInstruction g b s (b.instruction i)) v := by
  rcases seedInstruction_cases (g := g) hb s i with
    ⟨heq, hout⟩ | ⟨w, hw, hout, htracked, hphi, ⟨type, -, href, heq⟩ | ⟨hop, heq⟩⟩
  -- no output that is tracked
  · rw [heq]
    refine ⟨hs, fun v hv => hv.elim (fun hv htracked => ?_) id⟩
    rw [hout v hv] at htracked
    exact Bool.noConfusion htracked
  -- an output with a type of its own
  · have htype := href hargs
    rw [heq]
    refine ⟨⟨hs.tidy.set hw htracked (Or.inl htype), fun p hp => ?_⟩, fun v hv hv' => ?_⟩
    · rw [TypeMap.get_set_of_ne]
      · exact hs.phi p hp
      · rintro rfl
        exact Bool.noConfusion (hp.symm.trans hphi)
    · by_cases hvw : v = w
      · subst hvw
        refine ⟨fun hp => Bool.noConfusion (hp.symm.trans hphi), fun _ => Or.inl ?_⟩
        rw [TypeMap.get_set_self]
        exact htype
      · have hold : Seeded b s v :=
          hv.resolve_left fun h => hvw (Option.some.inj (h.symm.trans hout))
        rw [TypeMap.get_set_of_ne hvw]
        exact hold hv'
  -- an output that takes its type from an input is queued
  · rw [heq]
    obtain ⟨hqueue, hmem⟩ := hs.tidy.queued.queue.push w
    refine ⟨⟨⟨⟨hqueue, fun v hv => ?_⟩, hs.tidy.entries⟩, hs.phi⟩, fun v hv hv' => ?_⟩
    · rcases (hmem v).1 hv with hv | rfl
      · exact hs.tidy.queued.mem v hv
      · exact ⟨hw, htracked⟩
    · by_cases hvw : v = w
      · subst hvw
        exact ⟨fun hp => Bool.noConfusion (hp.symm.trans hphi), fun _ => Or.inr ⟨i, hout, hop⟩⟩
      · have hold : Seeded b s v :=
          hv.resolve_left fun h => hvw (Option.some.inj (h.symm.trans hout))
        exact ⟨fun hp => (hmem v).2 (Or.inl ((hold hv').1 hp)), (hold hv').2⟩

theorem seedPhis_seeded (hb : b.WellFormed) (hs : Starting b s) (k : BlockId) :
    Starting b { s with work := s.work.pushAll ((b.block k).phis.filter (isTracked b)) } ∧
      ∀ v, v ∈ (b.block k).phis ∨ Seeded b s v →
        Seeded b { s with work := s.work.pushAll ((b.block k).phis.filter (isTracked b)) } v := by
  obtain ⟨hqueue, hmem⟩ := hs.tidy.queued.queue.pushAll ((b.block k).phis.filter (isTracked b))
  refine ⟨⟨⟨⟨hqueue, fun v hv => ?_⟩, hs.tidy.entries⟩, hs.phi⟩, fun v hv htracked => ?_⟩
  · rcases (hmem v).1 hv with hv | hv
    · exact hs.tidy.queued.mem v hv
    · obtain ⟨hphi, htracked⟩ := List.mem_filter.1 hv
      exact ⟨hb.mem_values_of_phi hphi, htracked⟩
  · rcases hv with hv | hv
    · refine ⟨fun _ => (hmem v).2 (Or.inr (List.mem_filter.2 ⟨hv, htracked⟩)), fun hp => ?_⟩
      simp [hb.isPhi_of_mem_phis hv] at hp
    · exact ⟨fun hp => (hmem v).2 (Or.inl ((hv htracked).1 hp)), (hv htracked).2⟩

theorem seed_eq_walk (g : Hierarchy) (b : Body) :
    seed g b = b.walk (seedInstruction g b)
      (fun s k => { s with work := s.work.pushAll ((b.block k).phis.filter (isTracked b)) }) {} :=
  rfl

theorem seed_seeded (hb : b.WellFormed) (hargs : b.ReferenceArguments g) :
    Starting b (seed g b) ∧ ∀ v ∈ b.values, Seeded b (seed g b) v := by
  rw [seed_eq_walk]
  refine Body.walk_collects (P := Starting b) (Q := fun v s => Seeded b s v) hb
    (fun s i hs => seedInstruction_seeded hb hargs hs) (fun s k hs => seedPhis_seeded hb hs k) ?_
  refine ⟨⟨⟨Worklist.faithful_empty, by simp [Worklist.toList]⟩, ?_⟩, ?_⟩
  · simp [TypeMap.get?]
  · simp [TypeMap.get]

/-! ### Where it ends -/

theorem get?_foldl_complete (l : List ValueId) (types : TypeMap) :
    (l.foldl (fun types v =>
      if isTracked b v && types.get v = .bottom then types.set v (.ofDeclared true (b.value v).type)
        else types) types).get? v =
      if v ∈ l ∧ isTracked b v = true ∧ types.get v = .bottom then
        some (.ofDeclared true (b.value v).type)
      else types.get? v := by
  induction l generalizing types with
  | nil => simp
  | cons w l ih =>
    rw [List.foldl_cons, ih]
    simp only [Bool.and_eq_true, decide_eq_true_eq, List.mem_cons]
    by_cases hvw : v = w
    · subst hvw
      by_cases hv : isTracked b v = true ∧ types.get v = .bottom
      · have hne := ne_bottom_of_isReference (isReference_ofDeclared true hv.1)
        simp [hv, hne, TypeMap.get?_set]
      · simp [hv]
    · have hother : ∀ type, (types.set w type).get v = types.get v ∧
          (types.set w type).get? v = types.get? v :=
        fun type => ⟨TypeMap.get_set_of_ne hvw, by rw [TypeMap.get?_set, if_neg (Ne.symm hvw)]⟩
      split <;> simp [hvw, hother]

/-- References that nothing has reached get a type, and nothing else changes. -/
theorem get?_complete (types : TypeMap) : (complete b types).get? v =
    if v ∈ b.values ∧ isTracked b v = true ∧ types.get v = .bottom then
      some (.ofDeclared true (b.value v).type)
    else types.get? v := by
  rw [complete, get?_foldl_complete]
  simp only [Table.mem_indices]

theorem get?_complete_of_isReference {types : TypeMap} (h : (types.get v).isReference = true) :
    (complete b types).get? v = some (types.get v) := by
  rw [get?_complete, if_neg fun hv => ne_bottom_of_isReference h hv.2.2]
  rw [TypeMap.get_eq_getD] at h ⊢
  cases hv : types.get? v with
  | none =>
    rw [hv] at h
    exact Bool.noConfusion h
  | some type => rfl

/-- Every reference has the type of a reference, and nothing else has a type. -/
theorem Tidy.get?_complete (h : Tidy b s) (v : ValueId) :
    if v ∈ b.values ∧ isTracked b v = true then ∃ type : FlowType,
      (complete b s.types).get? v = some type ∧ type.isReference = true
    else (complete b s.types).get? v = none := by
  split
  · rename_i hv
    rcases h.get v with href | hbottom
    · exact ⟨_, get?_complete_of_isReference href, href⟩
    · refine ⟨_, ?_, isReference_ofDeclared true hv.2⟩
      rw [VerifierTyping.get?_complete, if_pos ⟨hv.1, hv.2, hbottom⟩]
  · rename_i hv
    rw [VerifierTyping.get?_complete, if_neg fun h => hv ⟨h.1, h.2.1⟩]
    refine Option.eq_none_iff_forall_not_mem.2 fun type htype => ?_
    exact hv (h.entries v type htype).1

/-- **The analysis never fails**, and it finds types of references for all references and for
nothing else. -/
theorem compute_ok (hb : b.WellFormed) (hargs : b.ReferenceArguments g) :
    ∃ t, (compute g b).result = .ok t ∧ ∀ v,
      if v ∈ b.values ∧ isTracked b v = true then ∃ type, t.typeOf v = .ok type
        else t.typeOf v = .error (.primitiveQuery v) := by
  obtain ⟨s, hrun, htidy⟩ := (seed_seeded hb hargs).1.tidy.run_ok (g := g) hb
  refine ⟨⟨complete b s.types⟩, by simp [compute, hrun], fun v => ?_⟩
  have hv := htidy.get?_complete v
  unfold typeOf flowType?
  split
  · rename_i htracked
    rw [if_pos htracked] at hv
    obtain ⟨type, htype, href⟩ := hv
    rw [htype]
    cases type <;> simp_all [FlowType.isReference]
  · rename_i htracked
    rw [if_neg htracked] at hv
    rw [hv]

/-! ### What a phi has -/

theorem run_bounded (hb : b.WellFormed) (hs : Starting b s)
    (hrun : run g (flow g b) s = (t, none)) :
    Bounded g b (isTracked b) t.types.get := by
  have hstart : Bounded g b (isTracked b) s.types.get := by
    intro p u hu
    cases hp : (b.value p).isPhi with
    | false => exact hu p ⟨hp, .refl⟩
    | true =>
      rw [hs.phi p hp]
      trivial
  refine (run_preserves (P := fun s => Tidy b s ∧ Bounded g b (isTracked b) s.types.get) ?_
    ⟨hs.tidy, hstart⟩ hrun).1.2
  rintro s t ⟨htidy, hbounded⟩ hstep
  refine ⟨htidy.step hb hstep,
    hbounded.step (f := flow g b) (fun types p hp => candidate_of_phi hp types) ?_ hstep⟩
  exact fun v hv => htidy.get_of_untracked hv

/-- A phi of references has exactly the references that feed it. -/
theorem run_phi (hb : b.WellFormed) (hargs : b.ReferenceArguments g)
    (hrun : run g (flow g b) (seed g b) = (t, none)) (hp : (b.value p).isPhi = true)
    (htracked : isTracked b p = true) :
    ∃ sources : List ValueId, (∀ v, v ∈ sources ↔ b.Feeds (isTracked b) v p) ∧
      t.types.get p = joinAll g (sources.map t.types.get) := by
  obtain ⟨hstart, hseeded⟩ := seed_seeded hb hargs
  refine (run_bounded hb hstart hrun).eq_joinAll hb (fun q v hq hv hv' => ?_) hp htracked
  have hphi := Body.isPhi_of_operand hv
  have hpending : Pending g (flow g b) (fun v => isTracked b v = true ∧ (b.value v).isPhi = true)
      (seed g b) :=
    ⟨hstart.tidy.queued.queue,
      fun v hv => Or.inl ((hseeded v (Body.mem_values_of_isPhi hv.2) hv.1).1 hv.2)⟩
  have hcomplete : (flow g b).Complete fun v => isTracked b v = true ∧ (b.value v).isPhi = true :=
    fun types types' v w hsame hw => flow_complete hb types types' v w hsame hw.1
  have hcovers : Covers g (candidate g b t.types.get q) (t.types.get q) :=
    run_saturated hcomplete hpending hrun ⟨hq, hphi⟩
  rw [candidate_of_phi hphi, joinAll_covers_iff] at hcovers
  exact hcovers _ (List.mem_map_of_mem hv)

/-- Without copies, every reference that is no phi has a type from the start on. -/
theorem run_isReference (hb : b.WellFormed) (hargs : b.ReferenceArguments g)
    (hcopies : ∀ i ∈ b.instructions, (b.instruction i).operation ≠ .load ∧
      (b.instruction i).operation ≠ .store) (hrun : run g (flow g b) (seed g b) = (t, none))
    (hv : v ∈ b.values) (htracked : isTracked b v = true) (hphi : (b.value v).isPhi = false) :
    (t.types.get v).isReference = true := by
  obtain ⟨hstart, hseeded⟩ := seed_seeded hb hargs
  have htidy := (run_preserves (fun _ _ (hs : Tidy b _) hst => hs.step hb hst) hstart.tidy hrun).1
  refine (htidy.get v).isReference (g := g) ?_ (run_ascends hrun v)
  refine ((hseeded v hv htracked).2 hphi).resolve_right ?_
  rintro ⟨i, hout, hop⟩
  obtain ⟨hload, hstore⟩ := hcopies i (hb.output_of_origin v i (hb.origin_of_output i v hout).2).1
  exact hop.elim hload hstore

/-- A hierarchy with a method that takes an `Integer`. -/
def mergeHierarchy : Hierarchy :=
  (Hierarchy.platform.addMethod ⟨.first, .init, ⟨[.object ⟨8⟩], none⟩, .ofList []⟩).2

/-- A loop with a phi of references into which the argument comes, an `int`, and the phi itself. -/
def mergeLoop : Body := .ofSteps ⟨0⟩
  [.block, .block, .edge ⟨0⟩ ⟨1⟩, .edge ⟨0⟩ ⟨1⟩, .edge ⟨1⟩ ⟨1⟩,
   .instruction ⟨0⟩ (.argument 1) [] (some (.field (.object ⟨8⟩))),
   .instruction ⟨0⟩ (.constant (.number (.int 0))) [] (some (.field (.base .int))),
   .phi ⟨1⟩ (.field (.object ⟨7⟩)),
   .operand ⟨2⟩ ⟨0⟩, .operand ⟨2⟩ ⟨1⟩, .operand ⟨2⟩ ⟨2⟩]

end VerifierTyping

end JvmLowering
