import JvmLowering.Proofs.Typing.VerifierExactness

/-!
# What comes into a phi of references

A move into a phi stores a slot of the type of the operand, and the frame of the block declares that
of the phi. Where the types have come to rest, a phi covers its operands. Afterwards a reference
that nothing has reached, such as a phi of which all operands are phis of the same kind, is given
its declared type, and this does not have to fit.

* `Body.Reached`: some value that is no phi comes in through phis;
* `get_ne_bottom_iff_reached`: these are the references that have a type when the propagation ends;
* `operands_fit`: the operands that are reached fit, and all others have what they are declared
  with;
* `operand_of_deadLoop_unfit`: those do not always fit.
-/

namespace JvmLowering

namespace Body

variable {b : Body} {p u : ValueId}

/-- A phi of references merges references, one for each predecessor of its block. -/
def ReferencePhis (b : Body) : Prop :=
  ∀ k, ∀ p ∈ (b.block k).phis, (b.value p).type.isReference = true →
    (b.operands p).length = (b.block k).predecessors.length ∧ ∀ u ∈ b.operands p,
    (b.value u).type.isReference = true

theorem referencePhis_iff : b.ReferencePhis ↔
    ∀ k ∈ b.blocks, ∀ p ∈ (b.block k).phis, (b.value p).type.isReference = true →
      (b.operands p).length = (b.block k).predecessors.length ∧ ∀ u ∈ b.operands p,
        (b.value u).type.isReference = true := by
  refine ⟨fun h k _ => h k, fun h k p hp => h k ?_ p hp⟩
  refine Classical.byContradiction fun hk => ?_
  rw [block_of_notMem hk] at hp
  exact List.not_mem_nil hp

instance (b : Body) : Decidable b.ReferencePhis := decidable_of_iff _ referencePhis_iff.symm

theorem ReferencePhis.operand (h : b.ReferencePhis) (hb : b.WellFormed)
    (hp : (b.value p).type.isReference = true) (hu : u ∈ b.operands p) :
    (b.value u).type.isReference = true := by
  obtain ⟨k, ho⟩ := origin_of_isPhi (isPhi_of_operand hu)
  exact (h k p ((hb.mem_phis k p).2 ⟨_, ho⟩) hp).2 u hu

/-- Some value that is no phi is the value itself or comes into it through phis. -/
def Reached (b : Body) (u : ValueId) : Prop := ∃ v, b.Feeds (fun _ => true) v u

end Body

namespace VerifierTyping

open FlowType Propagation

variable {g : Hierarchy} {b : Body} {s t : State} {u v w p : ValueId} {i : InsnId}

/-! ### Where the analysis starts -/

/-- Nothing is queued twice, and phis have nothing. -/
structure Untouched (b : Body) (s : State) : Prop where
  queue : s.work.Faithful
  phi : ∀ p, (b.value p).isPhi = true → s.types.get p = .bottom

/-- A reference that is a phi is queued, and every other one has a type. -/
def QueuedOrTyped (b : Body) (s : State) (v : ValueId) : Prop :=
  isTracked b v = true →
    ((b.value v).isPhi = true → v ∈ s.work.toList) ∧
    ((b.value v).isPhi = false → s.types.get v ≠ .bottom)

theorem Untouched.seedInstruction (hb : b.WellFormed) (hs : Untouched b s)
    (hcopy : (b.instruction i).operation ≠ .load ∧ (b.instruction i).operation ≠ .store) :
    Untouched b (seedInstruction g b s (b.instruction i)) ∧
      ∀ v, (b.instruction i).output = some v ∨ QueuedOrTyped b s v →
        QueuedOrTyped b (VerifierTyping.seedInstruction g b s (b.instruction i)) v := by
  rcases seedInstruction_cases (g := g) hb s i with
    ⟨heq, hout⟩ | ⟨w, -, hout, -, hphi, ⟨type, htype, -, heq⟩ | ⟨hop, -⟩⟩
  · rw [heq]
    refine ⟨hs, fun v hv => hv.elim (fun hv htracked => ?_) id⟩
    rw [hout v hv] at htracked
    exact Bool.noConfusion htracked
  · rw [heq]
    refine ⟨⟨hs.queue, fun p hp => ?_⟩, fun v hv htracked => ?_⟩
    · rw [TypeMap.get_set_of_ne]
      · exact hs.phi p hp
      · rintro rfl
        exact Bool.noConfusion (hp.symm.trans hphi)
    · by_cases hvw : v = w
      · subst hvw
        refine ⟨fun hp => Bool.noConfusion (hp.symm.trans hphi), fun _ => ?_⟩
        rw [TypeMap.get_set_self]
        exact htype
      · have hold : QueuedOrTyped b s v :=
          hv.resolve_left fun h => hvw (Option.some.inj (h.symm.trans hout))
        rw [TypeMap.get_set_of_ne hvw]
        exact hold htracked
  · exact absurd hop (not_or.2 hcopy)

theorem Untouched.seedPhis (hb : b.WellFormed) (hs : Untouched b s) (k : BlockId) :
    Untouched b { s with work := s.work.pushAll ((b.block k).phis.filter (isTracked b)) } ∧
      ∀ v, v ∈ (b.block k).phis ∨ QueuedOrTyped b s v →
        QueuedOrTyped b
          { s with work := s.work.pushAll ((b.block k).phis.filter (isTracked b)) } v := by
  obtain ⟨hqueue, hmem⟩ := hs.queue.pushAll ((b.block k).phis.filter (isTracked b))
  refine ⟨⟨hqueue, hs.phi⟩, fun v hv htracked => ?_⟩
  rcases hv with hv | hv
  · refine ⟨fun _ => (hmem v).2 (Or.inr (List.mem_filter.2 ⟨hv, htracked⟩)), fun hp => ?_⟩
    exact Bool.noConfusion (hp.symm.trans (hb.isPhi_of_mem_phis hv))
  · exact ⟨fun hp => (hmem v).2 (Or.inl ((hv htracked).1 hp)), (hv htracked).2⟩

theorem seed_queuedOrTyped (hb : b.WellFormed)
    (hcopies : ∀ i ∈ b.instructions, (b.instruction i).operation ≠ .load ∧
      (b.instruction i).operation ≠ .store) :
    Untouched b (seed g b) ∧ ∀ v ∈ b.values, QueuedOrTyped b (seed g b) v := by
  have hcopy : ∀ i, (b.instruction i).operation ≠ .load ∧ (b.instruction i).operation ≠ .store := by
    intro i
    by_cases hi : i ∈ b.instructions
    · exact hcopies i hi
    · rw [Body.instruction_of_notMem hi]
      exact ⟨Operation.noConfusion, Operation.noConfusion⟩
  rw [seed_eq_walk]
  refine Body.walk_collects (P := Untouched b) (Q := fun v s => QueuedOrTyped b s v) hb
    (fun s i hs => hs.seedInstruction hb (hcopy i)) (fun s k hs => hs.seedPhis hb k) ?_
  exact ⟨Worklist.faithful_empty, by simp [TypeMap.get]⟩

/-! ### Where the propagation ends -/

/-- A phi of references covers its operands. -/
theorem run_covers_operand (hb : b.WellFormed)
    (hcopies : ∀ i ∈ b.instructions, (b.instruction i).operation ≠ .load ∧
      (b.instruction i).operation ≠ .store) (hrun : run g (flow g b) (seed g b) = (t, none))
    (hp : isTracked b p = true) (hu : u ∈ b.operands p) :
    Covers g (t.types.get u) (t.types.get p) := by
  obtain ⟨hstart, hready⟩ := seed_queuedOrTyped (g := g) hb hcopies
  have hpending : Pending g (flow g b) (fun v => isTracked b v = true ∧ (b.value v).isPhi = true)
      (seed g b) :=
    ⟨hstart.queue, fun v hv => Or.inl ((hready v (Body.mem_values_of_isPhi hv.2) hv.1).1 hv.2)⟩
  have hcomplete : (flow g b).Complete fun v => isTracked b v = true ∧ (b.value v).isPhi = true :=
    fun types types' v w hsame hw => flow_complete hb types types' v w hsame hw.1
  have hphi := Body.isPhi_of_operand hu
  have hcovers : Covers g (candidate g b t.types.get p) (t.types.get p) :=
    run_saturated hcomplete hpending hrun ⟨hp, hphi⟩
  rw [candidate_of_phi hphi, joinAll_covers_iff] at hcovers
  exact hcovers _ (List.mem_map_of_mem hu)

/-- What is not reached has nothing. -/
theorem run_bottom (hstart : Untouched b s) (hrun : run g (flow g b) s = (t, none))
    (hu : ¬ b.Reached u) :
    t.types.get u = .bottom := by
  have hseed : Bounded g b (fun _ => true) s.types.get := by
    intro p type hp
    cases hphi : (b.value p).isPhi with
    | false => exact hp p ⟨hphi, .refl⟩
    | true =>
      rw [hstart.phi p hphi]
      trivial
  have hbounded := (run_preserves (P := fun s => Bounded g b (fun _ => true) s.types.get)
    (fun _ _ hs hstep => hs.step (f := flow g b) (fun types p hp => candidate_of_phi hp types)
      (fun _ hcounts => Bool.noConfusion hcounts) hstep) hseed hrun).1
  have hcovers : Covers g (t.types.get u) .bottom := hbounded u _ fun v hv => absurd ⟨v, hv⟩ hu
  exact hcovers.antisymm (g := g) trivial

/-- When the propagation ends, the references that have a type are those that are reached. -/
theorem get_ne_bottom_iff_reached (hb : b.WellFormed) (hphis : b.ReferencePhis)
    (hcopies : ∀ i ∈ b.instructions, (b.instruction i).operation ≠ .load ∧
      (b.instruction i).operation ≠ .store) (hrun : run g (flow g b) (seed g b) = (t, none))
    (hu : u ∈ b.values) (htracked : isTracked b u = true) :
    t.types.get u ≠ .bottom ↔ b.Reached u := by
  obtain ⟨hstart, hready⟩ := seed_queuedOrTyped (g := g) hb hcopies
  refine ⟨fun h => Classical.byContradiction fun hreached =>
    h (run_bottom hstart hrun hreached), ?_⟩
  rintro ⟨v, hv, hpath⟩
  -- on the way from the value back to the source there are only references, and types grow towards
  -- the value
  have hsource : v ∈ b.values ∧ isTracked b v = true ∧
      Covers g (t.types.get v) (t.types.get u) := by
    clear hv
    induction hpath with
    | refl => exact ⟨hu, htracked, Covers.refl g _⟩
    | tail _ hlast ih =>
      obtain ⟨-, hq, hcovers⟩ := ih
      refine ⟨hb.operands_mem _ _ hlast.1, hphis.operand hb hq hlast.1, ?_⟩
      exact (run_covers_operand hb hcopies hrun hq hlast.1).trans hcovers
  obtain ⟨hmem, hv', hcovers⟩ := hsource
  intro hbottom
  have htyped := ((hready v hmem) hv').2 hv
  have hnothing : Covers g ((seed g b).types.get v) .bottom :=
    (run_ascends hrun v).trans (hbottom ▸ hcovers)
  exact htyped (hnothing.antisymm (g := g) trivial)

/-! ### After the fallback -/

/-- A reference keeps its type if it has one. -/
theorem get?_complete_of_isTracked (types : TypeMap) (hv : v ∈ b.values)
    (htracked : isTracked b v = true) :
    (complete b types).get? v = some (if types.get v = .bottom then
      .ofDeclared true (b.value v).type else types.get v) := by
  rw [get?_complete]
  by_cases hbottom : types.get v = .bottom
  · rw [if_pos ⟨hv, htracked, hbottom⟩, if_pos hbottom]
  · rw [if_neg fun h => hbottom h.2.2, if_neg hbottom]
    rw [TypeMap.get_eq_getD] at hbottom ⊢
    cases hentry : types.get? v with
    | none =>
      rw [hentry] at hbottom
      exact absurd rfl hbottom
    | some type => rfl

/-- An analysis that ends within some steps gives types, which can be looked at. -/
theorem compute_of_runFor {n : Nat} {q : VerifierTyping → Bool}
    (h : (runFor g (flow g b) n (seed g b)).any
      (fun r => r.2.isNone && q ⟨complete b r.1.types⟩) = true) :
    ∃ t, (compute g b).result = .ok t ∧ q t = true := by
  obtain ⟨s, hrun, hq⟩ := run_of_runFor_any (q := fun s => q ⟨complete b s.types⟩) h
  exact ⟨_, by rw [compute, hrun], hq⟩

/-- **An operand fits the phi if it is reached**, in every block. An operand that is not reached has
what it is declared with. -/
theorem operands_fit {t : VerifierTyping} (hb : b.Built) (hphis : b.ReferencePhis)
    (hcopies : ∀ i ∈ b.instructions, (b.instruction i).operation ≠ .load ∧
      (b.instruction i).operation ≠ .store) (h : (compute g b).result = .ok t)
    (hp : (b.value p).type.isReference = true) (hu : u ∈ b.operands p) :
    ∃ operand phi, t.flowType? u = some operand ∧ t.flowType? p = some phi ∧
      (b.Reached u → le g operand phi = true) ∧
      (¬ b.Reached u → operand = .ofDeclared true (b.value u).type) ∧
      (¬ b.Reached p → phi = .ofDeclared true (b.value p).type) := by
  have hw := hb.wellFormed
  have hu' := hphis.operand hw hp hu
  unfold compute at h
  split at h
  · rename_i s hrun
    obtain rfl : (⟨complete b s.types⟩ : VerifierTyping) = t := Except.ok.inj h
    have hmem := Body.mem_values_of_isPhi (Body.isPhi_of_operand hu)
    -- what no type reaches is at the bottom, and is completed from its declaration
    have hreached := get_ne_bottom_iff_reached hw hphis hcopies hrun (hw.operands_mem p u hu) hu'
    have hreached' := get_ne_bottom_iff_reached hw hphis hcopies hrun hmem hp
    refine ⟨_, _, get?_complete_of_isTracked s.types (hw.operands_mem p u hu) hu',
      get?_complete_of_isTracked s.types hmem hp, fun hr => ?_, fun hr => if_pos ?_,
      fun hr => if_pos ?_⟩
    · obtain ⟨v, hv⟩ := hr
      rw [if_neg (hreached.2 ⟨v, hv⟩), if_neg (hreached'.2 ⟨v, hv.through hu rfl⟩)]
      exact le_iff_covers.2 (run_covers_operand hw hcopies hrun hp hu)
    · exact Classical.byContradiction fun hne => hr (hreached.1 hne)
    · exact Classical.byContradiction fun hne => hr (hreached'.1 hne)
  · simp at h

/-- A loop that nothing enters, with a `Long` that merges only itself. It goes on to a block in
which an `Integer` comes in. -/
def deadLoop : Body := .ofSteps ⟨0⟩
  [.block, .block, .block, .edge ⟨1⟩ ⟨1⟩, .edge ⟨0⟩ ⟨2⟩, .edge ⟨1⟩ ⟨2⟩,
   .instruction ⟨0⟩ (.newInstance ⟨8⟩) [] (some (.field (.object ⟨8⟩))),
   .instruction ⟨0⟩ .goto [] none,
   .phi ⟨1⟩ (.field (.object ⟨9⟩)),
   .instruction ⟨1⟩ (.constant (.number (.int 0))) [] (some (.field (.base .int))),
   .instruction ⟨1⟩ (.branch .eq) [⟨2⟩] none,
   .phi ⟨2⟩ (.field (.object ⟨7⟩)), .instruction ⟨2⟩ .ret [] none,
   .operand ⟨1⟩ ⟨1⟩, .operand ⟨3⟩ ⟨0⟩, .operand ⟨3⟩ ⟨1⟩]

/-- The `Integer` fits the phi into which it comes with the `Long`. -/
theorem operands_fit_deadLoop :
    ∃ t, (compute mergeHierarchy deadLoop).result = .ok t ∧
      ∃ operand phi, t.flowType? ⟨0⟩ = some operand ∧ t.flowType? ⟨3⟩ = some phi ∧
        le mergeHierarchy operand phi = true := by
  have hb : deadLoop.Built := Body.built_ofSteps _ _
  obtain ⟨t, ht, -⟩ := compute_ok (g := mergeHierarchy) hb.wellFormed (by decide +kernel)
  obtain ⟨operand, phi, hoperand, hphi, hfits, -, -⟩ :=
    operands_fit (p := ⟨3⟩) (u := ⟨0⟩) hb (by decide +kernel) (by decide +kernel) ht
      (by decide +kernel) (by decide +kernel)
  exact ⟨t, ht, operand, phi, hoperand, hphi, hfits ⟨⟨0⟩, by decide +kernel, .refl⟩⟩

/-- The `Long` does not fit it. -/
theorem operand_of_deadLoop_unfit :
    deadLoop.Built ∧ deadLoop.ReferencePhis ∧
      (∀ i ∈ deadLoop.instructions, (deadLoop.instruction i).operation ≠ .load ∧
        (deadLoop.instruction i).operation ≠ .store) ∧
      (deadLoop.value ⟨3⟩).type.isReference = true ∧ ⟨1⟩ ∈ deadLoop.operands ⟨3⟩ ∧
      ∃ t, (compute mergeHierarchy deadLoop).result = .ok t ∧
        ∃ operand phi, t.flowType? ⟨1⟩ = some operand ∧ t.flowType? ⟨3⟩ = some phi ∧
          le mergeHierarchy operand phi = false := by
  refine ⟨Body.built_ofSteps _ _, by decide +kernel, by decide +kernel, by decide +kernel, by
    decide +kernel, ?_⟩
  obtain ⟨t, ht, htypes⟩ :=
    compute_of_runFor (g := mergeHierarchy) (b := deadLoop) (n := 5)
      (q := fun t => t.flowType? ⟨1⟩ = some (.ref (.object ⟨9⟩) true) ∧
      t.flowType? ⟨3⟩ = some (.ref (.object ⟨8⟩) false)) (by decide +kernel)
  obtain ⟨hoperand, hphi⟩ := of_decide_eq_true htypes
  exact ⟨t, ht, _, _, hoperand, hphi, by decide +kernel⟩

end VerifierTyping

end JvmLowering
