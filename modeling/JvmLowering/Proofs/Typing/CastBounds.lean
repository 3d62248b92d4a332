import JvmLowering.Proofs.Typing.Soundness
import JvmLowering.Proofs.Typing.Widening

/-!
# Types of casts

What a cast gives can go down while its input moves up: a type below the target is kept, and any
other gives the target itself. The type of its output is the join of all that the cast has given so
far. As the target mentions no interface, joins of types below it are below it, so this holds at
each step, whatever the order of the steps.

* `Visits`: the states that an analysis, and all the widenings after it, come to;
* `FlowType.Within`: nothing, or a reference below a type;
* `Bounds`: what holds of the types of all states, kept by candidates, joins and a body that grows;
* `casts_within`: the outputs of casts are always within their targets.
-/

namespace JvmLowering

namespace FlowType

variable {g : Hierarchy} {target : RefType ClassId} {s t : FlowType}

/-- Nothing yet, or a reference that lies below a type. -/
def Within (g : Hierarchy) (target : RefType ClassId) (t : FlowType) : Prop :=
  t = bottom ∨ ∃ r nullable, t = ref r nullable ∧ g.RefLE r target

theorem Within.join (hs : s.Within g target) (ht : t.Within g target) :
    (s.join g t).Within g target := by
  rcases hs with rfl | ⟨r, m, rfl, hr⟩ <;> rcases ht with rfl | ⟨r', n, rfl, hr'⟩
  · exact Or.inl rfl
  · exact Or.inr ⟨r', n, rfl, hr'⟩
  · exact Or.inr ⟨r, m, rfl, hr⟩
  · exact Or.inr ⟨_, _, rfl, Hierarchy.joinRef_le_iff.2 ⟨hr, hr'⟩⟩

/-- Where no interface is mentioned, a type can be assigned to the target only if it is below it. -/
theorem within_checkCast (hv : g.Conventional) (hw : g.WellFormed) (hk : g.Knows target)
    (hf : g.InterfaceFree target) (t : FlowType) : (t.checkCast g target).Within g target := by
  rcases t with _ | _ | _ | b | ⟨r, n⟩
  · exact Or.inl rfl
  · exact Or.inr ⟨target, true, rfl, .refl g target⟩
  · exact Or.inr ⟨target, true, rfl, .refl g target⟩
  · exact Or.inr ⟨target, true, rfl, .refl g target⟩
  · simp only [checkCast]
    split
    · rename_i hassign
      exact Or.inr ⟨r, n, rfl, hv.refLE_of_isAssignable hw hk hf hassign⟩
    · exact Or.inr ⟨target, n, rfl, .refl g target⟩

theorem Within.assignable (hr : g.Rooted) (hw : g.WellFormed) (hk : t.Known g)
    (h : t.Within g target) :
    t = bottom ∨ ∃ r nullable, t = ref r nullable ∧ g.isAssignable r target = true := by
  rcases h with rfl | ⟨r, n, rfl, hle⟩
  · exact Or.inl rfl
  · exact Or.inr ⟨r, n, rfl, hr.isAssignable_of_refLE hw hk hle⟩

end FlowType

namespace FlowTyping

open FlowType Propagation

variable {g : Hierarchy} {b : Body} {settings : Settings} {s t : State}
  {types types' : ValueId → FlowType}

/-! ### States -/

/-- The states that an analysis of a body comes to, from its first one on, and then the widenings
that follow it, each of which may find the body built on. -/
inductive Visits (g : Hierarchy) : Body → State → Prop
  | start {b : Body} (built : b.Built) (made : b.MadeFor g) : Visits g b {}
  | instruction {b : Body} {s : State} (before : Visits g b s) (i : InsnId) :
      Visits g b (seedInstruction g b s (b.instruction i))
  | phis {b : Body} {s : State} (before : Visits g b s) (k : BlockId) :
      Visits g b { s with work := s.work.pushAll (b.block k).phis }
  | step {b : Body} {s t : State} {settings : Settings} (before : Visits g b s)
      (step : step g (flow g settings b) s = .continued t) : Visits g b t
  | widen {b : Body} {s : State} (before : Visits g b s) (r : Round)
      (made : (r.build b).MadeFor g) :
      Visits g (r.build b) { work := Worklist.empty.pushAll r.values, types := s.types }

theorem visits_seed (hb : b.Built) (hm : b.MadeFor g) : Visits g b (seed g b) := by
  rw [seed_eq_walk]
  exact Body.walk_preserves (P := Visits g b) (fun _ i hs => hs.instruction i)
    (fun _ k hs => hs.phis k) (.start hb hm)

theorem Visits.run (h : Visits g b s) (settings : Settings) :
    Visits g b (run g (flow g settings b) s).1 :=
  (run_preserves (P := Visits g b) (fun _ _ hs hstep => hs.step hstep) h rfl).1

theorem Visits.built (h : Visits g b s) : b.Built ∧ b.MadeFor g := by
  induction h with
  | start built made => exact ⟨built, made⟩
  | instruction _ _ ih => exact ih
  | phis _ _ ih => exact ih
  | step _ _ ih => exact ih
  | widen _ r made ih => exact ⟨Round.build_built ih.1 r, made⟩

/-- An output is typed at once with what it should have. -/
theorem seedInstruction_types (hb : b.WellFormed) (s : State) (i : InsnId) :
    (seedInstruction g b s (b.instruction i)).types = s.types ∨
      ∃ v, (seedInstruction g b s (b.instruction i)).types =
        s.types.set v (candidate g b s.types.get v) := by
  unfold seedInstruction
  split
  · exact Or.inl rfl
  · rename_i v hout
    have hcandidate := candidate_of_output (g := g) hb hout s.types.get
    split
    · rename_i index hop
      refine Or.inr ⟨v, ?_⟩
      rw [hcandidate, outputType, hop]
    · split
      · exact Or.inl rfl
      · split
        · rename_i hown
          refine Or.inr ⟨v, ?_⟩
          rw [hcandidate, outputType_of_hasOwnType hown]
        · exact Or.inl rfl

/-! ### Bounds -/

/-- The types mention only classes that are there, values that are not there have none, and casts
are within their targets. -/
structure Bounds (g : Hierarchy) (b : Body) (types : ValueId → FlowType) : Prop where
  known : ∀ v, (types v).Known g
  absent : ∀ v, v ∉ b.values → types v = .bottom
  cast : ∀ i target v, (b.instruction i).operation = .checkCast target → g.InterfaceFree target →
    (b.instruction i).output = some v → (types v).Within g target

/-- The types of each value may come from different families. -/
theorem Bounds.mix {mixed : ValueId → FlowType} (h : Bounds g b types) (h' : Bounds g b types')
    (hmixed : ∀ v, mixed v = types v ∨ mixed v = types' v) : Bounds g b mixed where
  known v := by rcases hmixed v with heq | heq <;> rw [heq] <;> [exact h.known v; exact h'.known v]
  absent v hv := by
    rcases hmixed v with heq | heq <;> rw [heq] <;> [exact h.absent v hv; exact h'.absent v hv]
  cast i target v hop hf hout := by
    rcases hmixed v with heq | heq <;> rw [heq]
    · exact h.cast i target v hop hf hout
    · exact h'.cast i target v hop hf hout

theorem Bounds.join (hw : g.WellFormed) (h : Bounds g b types) (h' : Bounds g b types') :
    Bounds g b fun v => (types v).join g (types' v) where
  known v := known_join hw (h.known v) (h'.known v)
  absent v hv := by
    rw [h.absent v hv, h'.absent v hv]
    rfl
  cast i target v hop hf hout :=
    (h.cast i target v hop hf hout).join (h'.cast i target v hop hf hout)

/-- What a cast gives is within its target whatever its input is. -/
theorem Bounds.candidate (hv : g.Conventional) (hw : g.WellFormed) (hb : b.WellFormed)
    (hm : b.MadeFor g) (hknown : ∀ v, (types v).Known g) : Bounds g b (candidate g b types) where
  known v := known_candidate hw hm hknown
  absent v hv := candidate_of_notMem hv types
  cast i target v hop hf hout := by
    have hk : g.Knows target := hm.knows_named i target (by rw [hop]; rfl)
    rw [candidate_of_output hb hout, outputType, hop]
    exact within_checkCast hv hw hk hf _

/-- A cast that was there before is the same, and the output of a new one has no type yet. -/
theorem Bounds.build (hb : b.Built) (h : Bounds g b types) (r : Round) :
    Bounds g (r.build b) types where
  known := h.known
  absent v hv := h.absent v fun hmem => hv ((Round.build_extends hb r).mem_values v hmem)
  cast i target v hop hf hout := by
    by_cases hmem : v ∈ b.values
    · obtain ⟨-, horigin⟩ := (Round.build_built hb r).wellFormed.origin_of_output i v hout
      have hdef : (r.build b).definition? v = some ((r.build b).instruction i) := by
        simp [Body.definition?, Value.definition?, horigin]
      rw [(Round.build_extends hb r).definition v hmem] at hdef
      obtain ⟨j, hj, heq⟩ := Option.map_eq_some_iff.1 hdef
      rw [← heq] at hop
      exact h.cast j target v hop hf (hb.wellFormed.output_of_definition hj).2
    · exact Or.inl (h.absent v hmem)

theorem Bounds.set (h : Bounds g b s.types.get) (h' : Bounds g b types') (v : ValueId) :
    Bounds g b (s.types.set v (types' v)).get := by
  refine h.mix h' fun w => ?_
  rw [TypeMap.get_set]
  split
  · rename_i heq
    rw [heq]
    exact Or.inr rfl
  · exact Or.inl rfl

theorem Visits.bounds (hv : g.Conventional) (hw : g.WellFormed) (h : Visits g b s) :
    Bounds g b s.types.get := by
  induction h with
  | start built made => exact ⟨fun v => trivial, fun v _ => rfl, fun _ _ _ _ _ _ => Or.inl rfl⟩
  | @instruction b s before i ih =>
    obtain ⟨built, made⟩ := before.built
    rcases seedInstruction_types (g := g) built.wellFormed s i with
      htypes | ⟨v, htypes⟩ <;> rw [htypes]
    · exact ih
    · exact ih.set (.candidate hv hw built.wellFormed made ih.known) v
  | phis _ _ ih => exact ih
  | @step b s t settings before hstep ih =>
    obtain ⟨built, made⟩ := before.built
    obtain ⟨v, work, -, ⟨-, htypes, -⟩ | ⟨htypes, -⟩⟩ := step_continued hstep <;> rw [htypes]
    · exact ih
    · exact ih.set (ih.join hw (.candidate hv hw built.wellFormed made ih.known)) v
  | widen before r made ih => exact ih.build before.built.1 r

/-! ### Outputs of casts -/

/-- Each output of a cast to a type that mentions no interface has nothing yet, or a reference that
can be assigned to it. -/
def CastsWithin (g : Hierarchy) (b : Body) (types : ValueId → FlowType) : Prop :=
  ∀ i ∈ b.instructions, ∀ target v, (b.instruction i).operation = .checkCast target →
    g.InterfaceFree target →
    (b.instruction i).output = some v →
      types v = .bottom ∨ ∃ r nullable, types v = .ref r nullable ∧ g.isAssignable r target = true

/-- **Casts stay within their targets**, in each state of an analysis and of the widenings that
follow it. -/
theorem casts_within (hg : g.Grown) (hv : g.Conventional) :
    (∀ b, b.Built → b.MadeFor g → Visits g b (seed g b)) ∧
      ∀ b s, Visits g b s → CastsWithin g b s.types.get ∧ ∀ settings,
        Visits g b (run g (flow g settings b) s).1 := by
  refine ⟨fun b hb hm => visits_seed hb hm,
    fun b s h => ⟨fun i _ target v hop hf hout => ?_, h.run⟩⟩
  have hbounds := h.bounds hv hg.wellFormed
  exact (hbounds.cast i target v hop hf hout).assignable hv.toRooted hg.wellFormed (hbounds.known v)

/-- Brings a `Long` into the first phi of the loop of `castLoop`, along a new edge. -/
def castRound : Round where
  steps := [.block, .edge ⟨3⟩ ⟨1⟩,
    .instruction ⟨3⟩ (.newInstance ⟨9⟩) [] (some (.field (.object ⟨9⟩))), .operand ⟨1⟩ ⟨4⟩]
  values := [⟨1⟩, ⟨4⟩]

theorem castLoop_madeFor : castLoop.MadeFor callHierarchy := by
  refine ⟨by decide +kernel, ?_, ?_⟩
  · simp only [← Table.mem_indices (t := castLoop.values)]
    decide +kernel
  · simp only [← Table.mem_indices (t := castLoop.instructions)]
    decide +kernel

theorem castRound_madeFor : (castRound.build castLoop).MadeFor callHierarchy := by
  refine ⟨by decide +kernel, ?_, ?_⟩
  · simp only [← Table.mem_indices (t := (castRound.build castLoop).values)]
    decide +kernel
  · simp only [← Table.mem_indices (t := (castRound.build castLoop).instructions)]
    decide +kernel

/-- The `Number` of the second phi is cast to `Long`: the output is within it when the analysis ends
and when the round ends. -/
theorem casts_within_castLoop :
    callHierarchy.Conventional ∧ callHierarchy.InterfaceFree (.object ⟨9⟩) ∧ ∀ settings,
      let s := (run callHierarchy (flow callHierarchy settings castLoop)
        (seed callHierarchy castLoop)).1
      let t := (run callHierarchy (flow callHierarchy settings (castRound.build castLoop))
        { work := Worklist.empty.pushAll castRound.values, types := s.types }).1
      CastsWithin callHierarchy castLoop s.types.get ∧
        (t.types.get ⟨3⟩ = .bottom ∨
          ∃ r nullable, t.types.get ⟨3⟩ = .ref r nullable ∧
          callHierarchy.isAssignable r (.object ⟨9⟩) = true) := by
  have hg : callHierarchy.Grown := .addMethod Hierarchy.Grown.initial.addPlatform
    ⟨by decide +kernel, by decide +kernel, by decide +kernel⟩
  have hv : callHierarchy.Conventional :=
    (by decide +kernel : callHierarchy.Standard).toConventional
  have hf : callHierarchy.InterfaceFree (.object ⟨9⟩) := by
    unfold Hierarchy.InterfaceFree
    decide +kernel
  obtain ⟨hseed, hvisits⟩ := casts_within hg hv
  refine ⟨hv, hf, fun settings => ?_⟩
  have hs := (hvisits _ _ (hseed _ (Body.built_ofSteps _ _) castLoop_madeFor)).2 settings
  have ht := (hvisits _ _ (hs.widen castRound castRound_madeFor)).2 settings
  exact ⟨(hvisits _ _ hs).1, (hvisits _ _ ht).1 ⟨1⟩ (by decide +kernel) (.object ⟨9⟩) ⟨3⟩
    (by decide +kernel) hf (by decide +kernel)⟩

end FlowTyping

end JvmLowering
