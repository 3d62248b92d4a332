import JvmLowering.Proofs.Body.Built
import JvmLowering.Proofs.Hierarchy.Assignability
import JvmLowering.Proofs.Worklist
import JvmLowering.Typing.FlowTyping

/-!
# Propagation ends with saturated types

When the worklist is empty, the type of every value covers what the value should have at least.
While the propagation runs, every value for which this does not hold is on the worklist: a change
queues all values that hang on it.

* `Propagation.run_saturated`: the statement for every flow that queues enough;
* `FlowTyping.infer_saturated`: the statement for the flow types of a body.
-/

namespace JvmLowering

/-! ### Propagation -/

namespace Propagation

open FlowType

variable {g : Hierarchy} {f : Flow} {s t : State} {e : Option Error}

/-- A step takes a value off the worklist. Either the type of the value already covers what it
should have, or it moves up and what hangs on the value is queued. -/
theorem step_continued (h : step g f s = .continued t) :
    ∃ v work, s.work.pop? = some (v, work) ∧
      (Covers g (f.candidate s.types.get v) (s.types.get v) ∧ t.types = s.types ∧ t.work = work ∨
        t.types = s.types.set v ((s.types.get v).join g (f.candidate s.types.get v)) ∧
          t.work = work.pushAll (f.dependents v)) := by
  unfold step at h
  split at h
  · simp at h
  · rename_i v work hpop
    refine ⟨v, work, hpop, ?_⟩
    split at h
    · simp only at h
      split at h
      · simp at h
      · split at h
        · rename_i hjoin
          simp only [Outcome.continued.injEq] at h
          subst h
          have hcov : Covers g (f.candidate s.types.get v) (s.types.get v) :=
            hjoin.subst (motive := Covers g (f.candidate s.types.get v)) (covers_join_right g _ _)
          exact Or.inl ⟨hcov, rfl, rfl⟩
        · simp only [Outcome.continued.injEq] at h
          subst h
          exact Or.inr ⟨rfl, rfl⟩
    · simp at h

theorem step_settled (h : step g f s = .settled) : s.work.toList = [] := by
  unfold step at h
  split at h
  · exact Worklist.pop?_eq_none_iff.1 ‹_›
  · split at h
    · simp only at h
      split at h
      · simp at h
      · split at h <;> simp at h
    · simp at h

/-- What every step keeps, a run keeps. A run without an error ends with an empty worklist. -/
theorem run_preserves {P : State → Prop} (hstep : ∀ s t, P s → step g f s = .continued t → P t)
    (hs : P s) (hrun : run g f s = (t, e)) : P t ∧ (e = none → t.work.toList = []) := by
  fun_induction run g f s with
  | case1 s h =>
    obtain ⟨rfl, rfl⟩ := Prod.mk.inj hrun
    exact ⟨hs, fun _ => step_settled h⟩
  | case2 s e' h =>
    obtain ⟨rfl, rfl⟩ := Prod.mk.inj hrun
    exact ⟨hs, fun he => by simp at he⟩
  | case3 s s' h _ ih => exact ih (hstep s s' hs h) hrun

/-- A run of at most so many steps, which can be evaluated. -/
def runFor (g : Hierarchy) (f : Flow) : Nat → State → Option (State × Option Error)
  | 0, _ => none
  | n + 1, s =>
    match step g f s with
    | .settled => some (s, none)
    | .refused e => some (s, some e)
    | .continued t => runFor g f n t

theorem run_of_runFor {n : Nat} {r : State × Option Error} (h : runFor g f n s = some r) :
    run g f s = r := by
  induction n generalizing s with
  | zero => simp [runFor] at h
  | succ n ih =>
    unfold runFor at h
    rw [run]
    split <;> rename_i hstep <;> simp only [hstep] at h
    · exact Option.some.inj h
    · exact Option.some.inj h
    · exact ih h

/-- A run that ends well within some steps, and what it ends with. -/
theorem run_of_runFor_any {n : Nat} {q : State → Bool}
    (h : (runFor g f n s).any (fun r => r.2.isNone && q r.1) = true) :
    ∃ t, run g f s = (t, none) ∧ q t = true := by
  cases hrun : runFor g f n s with
  | none => simp [hrun] at h
  | some r =>
    obtain ⟨t, e⟩ := r
    rw [hrun, Option.any_some, Bool.and_eq_true, Option.isNone_iff_eq_none] at h
    obtain ⟨rfl, hq⟩ := h
    exact ⟨t, run_of_runFor hrun, hq⟩

end Propagation

/-- A change of a value queues all values with a property whose candidates hang on it. -/
def Flow.Complete (f : Flow) (p : ValueId → Prop) : Prop :=
  ∀ (types types' : ValueId → FlowType) (v w : ValueId), (∀ u, u ≠ v → types' u = types u) → p w →
    w ∉ f.dependents v →
    f.candidate types' w = f.candidate types w

namespace Propagation

open FlowType

variable {g : Hierarchy} {f : Flow} {s t : State} {p : ValueId → Prop}

/-- Of the values with a property, all that are not queued have what they should have. -/
structure Pending (g : Hierarchy) (f : Flow) (p : ValueId → Prop) (s : State) : Prop where
  queue : s.work.Faithful
  covered : ∀ v, p v → v ∈ s.work.toList ∨ Covers g (f.candidate s.types.get v) (s.types.get v)

theorem Pending.step (hf : f.Complete p) (h : Pending g f p s) (hstep : step g f s = .continued t) :
    Pending g f p t := by
  obtain ⟨v, work, hpop, ⟨hcov, htypes, hwork⟩ | ⟨htypes, hwork⟩⟩ := step_continued hstep
  -- the value that was taken up is covered: it need not wait any longer
  · have hlist := Worklist.toList_pop? hpop
    refine ⟨hwork ▸ h.queue.pop? hpop, fun w hw => ?_⟩
    rw [htypes, hwork]
    rcases h.covered w hw with hmem | hcov'
    · rw [hlist, List.mem_cons] at hmem
      rcases hmem with rfl | hmem
      · exact Or.inr hcov
      · exact Or.inl hmem
    · exact Or.inr hcov'
  -- its type has moved: what hangs on it waits again, and nothing else has a new candidate
  · have hlist := Worklist.toList_pop? hpop
    obtain ⟨hqueue, hmem⟩ := (h.queue.pop? hpop).pushAll (f.dependents v)
    refine ⟨hwork ▸ hqueue, fun w hw => ?_⟩
    by_cases hdep : w ∈ f.dependents v
    · exact Or.inl (hwork ▸ (hmem w).2 (Or.inr hdep))
    · have hcand : f.candidate t.types.get w = f.candidate s.types.get w := by
        refine hf _ _ v w (fun u hu => ?_) hw hdep
        rw [htypes, TypeMap.get_set_of_ne hu]
      rw [hcand, htypes, hwork, hmem]
      by_cases hwv : w = v
      · subst hwv
        rw [TypeMap.get_set_self]
        exact Or.inr (covers_join_right g _ _)
      · rw [TypeMap.get_set_of_ne hwv]
        rcases h.covered w hw with hq | hcov
        · rw [hlist, List.mem_cons] at hq
          exact Or.inl (Or.inl (hq.resolve_left hwv))
        · exact Or.inr hcov

/-- **A run that ends well saturates the types** of all values that were queued or covered at its
start. -/
theorem run_saturated (hf : f.Complete p) (h : Pending g f p s) (hrun : run g f s = (t, none))
    {v : ValueId} (hv : p v) :
    Covers g (f.candidate t.types.get v) (t.types.get v) := by
  obtain ⟨hp, hempty⟩ := run_preserves (fun _ _ hs hst => Pending.step hf hs hst) h hrun
  refine (hp.covered v hv).resolve_left ?_
  rw [hempty rfl]
  exact List.not_mem_nil

end Propagation

/-! ### Walks over a body -/

/-- What a fold makes for the items of a list is there in the end if no step undoes it. -/
theorem foldl_collects {σ α ι : Type} {f : σ → α → σ} {P : σ → Prop} {M : α → ι → Prop}
    {Q : ι → σ → Prop} {l : List α} {s : σ}
    (hstep : ∀ s, ∀ a ∈ l, P s → P (f s a) ∧ ∀ x, M a x ∨ Q x s → Q x (f s a)) (hs : P s) :
    P (l.foldl f s) ∧ ∀ x, (∃ a ∈ l, M a x) ∨ Q x s → Q x (l.foldl f s) := by
  induction l generalizing s with
  | nil => exact ⟨hs, fun x hx => hx.resolve_left (by simp)⟩
  | cons a l ih =>
    obtain ⟨ha, hkept⟩ := hstep s a List.mem_cons_self hs
    obtain ⟨hl, hkept'⟩ := ih (fun s c hc => hstep s c (List.mem_cons_of_mem a hc)) ha
    refine ⟨hl, fun x hx => hkept' x ?_⟩
    rcases hx with ⟨c, hc, hmade⟩ | hx
    · rcases List.mem_cons.1 hc with rfl | hc
      · exact Or.inr (hkept x (Or.inl hmade))
      · exact Or.inl ⟨c, hc, hmade⟩
    · exact Or.inr (hkept x (Or.inr hx))

namespace Body

variable {σ : Type} {b : Body} {f : σ → Instruction → σ} {h : σ → BlockId → σ}
  {s : σ} {P : σ → Prop}

/-- Block by block the instructions, and then the block itself. -/
def walk (b : Body) (f : σ → Instruction → σ) (h : σ → BlockId → σ) (s : σ) : σ :=
  b.blocks.indices.foldl (fun s k => h ((b.instructionsOf k).foldl f s) k) s

theorem walk_preserves (hinstruction : ∀ s i, P s → P (f s (b.instruction i)))
    (hblock : ∀ s k, P s → P (h s k)) (hs : P s) :
    P (b.walk f h s) := by
  refine List.foldlRecOn b.blocks.indices _ hs fun s hs k _ => hblock _ k ?_
  unfold instructionsOf
  rw [List.foldl_map]
  exact List.foldlRecOn _ _ hs fun s hs i _ => hinstruction s i hs

/-- What the instruction that makes a value, or the block that merges it, gives the value is there
in the end if no step undoes it. -/
theorem walk_collects {Q : ValueId → σ → Prop} (hb : b.WellFormed)
    (hinstruction : ∀ s i, P s → P (f s (b.instruction i)) ∧
      ∀ v, (b.instruction i).output = some v ∨ Q v s → Q v (f s (b.instruction i)))
    (hblock : ∀ s k, P s → P (h s k) ∧ ∀ v, v ∈ (b.block k).phis ∨ Q v s → Q v (h s k)) (hs : P s) :
    P (b.walk f h s) ∧ ∀ v ∈ b.values, Q v (b.walk f h s) := by
  -- a block collects the outputs of its instructions, and then its phis
  have hstep : ∀ s, ∀ k ∈ b.blocks.indices, P s → P (h ((b.instructionsOf k).foldl f s) k) ∧ ∀ v,
      ((∃ i ∈ (b.block k).instructions, (b.instruction i).output = some v) ∨ v ∈ (b.block k).phis) ∨
      Q v s → Q v (h ((b.instructionsOf k).foldl f s) k) := by
    intro s k _ hs
    obtain ⟨hP, hmade⟩ :=
      foldl_collects (l := (b.block k).instructions)
        (M := fun i v => (b.instruction i).output = some v) (Q := Q)
        (fun s i _ hs => hinstruction s i hs) hs
    unfold instructionsOf
    rw [List.foldl_map]
    obtain ⟨hP', hmade'⟩ := hblock _ k hP
    refine ⟨hP', fun v hv => hmade' v ?_⟩
    rcases hv with (hi | hp) | hv
    · exact Or.inr (hmade v (Or.inl hi))
    · exact Or.inl hp
    · exact Or.inr (hmade v (Or.inr hv))
  obtain ⟨hP, hmade⟩ :=
    foldl_collects
      (M := fun k v => (∃ i ∈ (b.block k).instructions, (b.instruction i).output = some v) ∨
      v ∈ (b.block k).phis) (Q := Q) hstep hs
  -- a block that makes a value is there, so it is walked over
  have hplaced : ∀ k, (b.block k).instructions ≠ [] ∨ (b.block k).phis ≠ [] →
      k ∈ b.blocks.indices := by
    intro k hk
    rw [Table.mem_indices]
    by_contra hn
    rw [block_of_notMem hn] at hk
    simp [default] at hk
  refine ⟨hP, fun v hv => hmade v (Or.inl ?_)⟩
  cases ho : (b.value v).origin with
  | instruction i =>
    obtain ⟨hi, hout⟩ := hb.output_of_origin v i ho
    have hmem := (hb.mem_instructions _ i).2 ⟨hi, rfl⟩
    exact ⟨_, hplaced _ (Or.inl (List.ne_nil_of_mem hmem)), Or.inl ⟨i, hmem, hout⟩⟩
  | phi k operands =>
    have hmem := (hb.mem_phis k v).2 ⟨operands, ho⟩
    exact ⟨k, hplaced k (Or.inr (List.ne_nil_of_mem hmem)), Or.inr hmem⟩
  | stack slot definition => exact absurd ho (hb.not_stack v hv slot definition)

end Body

/-! ### Flow types of a body -/

namespace FlowTyping

open FlowType Propagation

variable {g : Hierarchy} {b : Body} {settings : Settings} {s : State} {v w : ValueId}
  {i : InsnId} {k : BlockId}

/-- A phi does not notice a change of a value that it does not merge. -/
theorem map_operands_congr {types types' : ValueId → FlowType} (hb : b.WellFormed)
    (hsame : ∀ u, u ≠ v → types' u = types u) (hw : w ∉ (b.value v).users.phis) :
    (b.operands w).map types' = (b.operands w).map types := by
  refine List.map_congr_left fun u hu => hsame u ?_
  rintro rfl
  exact hw ((hb.mem_phiReaders u w).2 hu)

/-- An instruction does not notice a change of a value that it does not read. -/
theorem firstInput_congr {types types' : ValueId → FlowType} (hb : b.WellFormed)
    (hsame : ∀ u, u ≠ v → types' u = types u) (hi : i ∉ (b.value v).users.instructions) :
    firstInput types' (b.instruction i) = firstInput types (b.instruction i) := by
  unfold firstInput
  cases hhead : (b.instruction i).inputs.head? with
  | none => rfl
  | some u =>
    refine congrArg (·.getD FlowType.bottom) (congrArg some (hsame u ?_))
    rintro rfl
    exact hi ((hb.mem_readers u i).2 (List.mem_of_mem_head? hhead))

/-- A type that goes by the inputs goes by the first one alone. -/
theorem outputType_congr {types types' : ValueId → FlowType} {insn : Instruction}
    (h : insn.operation.isArgument = false → insn.operation.hasOwnType = false →
      firstInput types' insn = firstInput types insn) :
    outputType g b types' insn v = outputType g b types insn v := by
  unfold outputType
  split <;> rename_i hop
  · rfl
  · rw [h (by rw [hop]; rfl) (by rw [hop]; rfl)]
  · rw [h (by rw [hop]; rfl) (by rw [hop]; rfl)]
  · exact h (by rw [hop]; rfl) (by rw [hop]; rfl)
  · exact h (by rw [hop]; rfl) (by rw [hop]; rfl)
  · rfl

theorem candidate_of_output (hb : b.WellFormed) (hv : (b.instruction i).output = some v)
    (types : ValueId → FlowType) :
    candidate g b types v = outputType g b types (b.instruction i) v := by
  obtain ⟨-, ho⟩ := hb.origin_of_output i v hv
  simp [candidate, Body.definition?, Value.definition?, ho]

theorem flow_complete (hb : b.WellFormed) (p : ValueId → Prop) :
    (flow g settings b).Complete p := by
  intro types types' v w hsame _ hw
  simp only [flow, dependents, List.mem_append, not_or] at hw
  obtain ⟨hreader, hphi⟩ := hw
  show candidate g b types' w = candidate g b types w
  unfold candidate
  split
  · rename_i l operands ho
    have hmap := map_operands_congr hb hsame fun h => hphi (Std.TreeSet.mem_toList.2 h)
    rw [Body.operands, Value.operands, ho] at hmap
    exact congrArg (joinAll g) hmap
  · split
    · rename_i insn hdef
      obtain ⟨i, hi, rfl⟩ := Option.map_eq_some_iff.1 hdef
      refine outputType_congr fun harg hown => firstInput_congr hb hsame fun h => ?_
      refine hreader (List.mem_filterMap.2 ⟨i, Std.TreeSet.mem_toList.2 h, ?_⟩)
      simp [inferredOutput?, harg, hown, (hb.output_of_definition hi).2]
    · rfl

/-! ### Where the propagation starts -/

/-- Queued, or typed with all that it should ever have. -/
def Seeded (g : Hierarchy) (b : Body) (s : State) (v : ValueId) : Prop :=
  v ∈ s.work.toList ∨ ∀ types, candidate g b types v = s.types.get v

theorem Seeded.set {t : FlowType} (hv : ∀ types, candidate g b types v = t)
    (h : w = v ∨ Seeded g b s w) :
    Seeded g b { s with types := s.types.set v t } w := by
  by_cases hwv : w = v
  · subst hwv
    exact Or.inr fun types => (hv types).trans (TypeMap.get_set_self _ _ _).symm
  · rcases h.resolve_left hwv with hmem | hcand
    · exact Or.inl hmem
    · exact Or.inr fun types => (hcand types).trans (TypeMap.get_set_of_ne hwv).symm

/-- Queueing more values keeps the others. -/
theorem Seeded.queue {work : Worklist ValueId} {p : ValueId → Prop}
    (hmem : ∀ u, u ∈ work.toList ↔ u ∈ s.work.toList ∨ p u) (h : p w ∨ Seeded g b s w) :
    Seeded g b { s with work } w := by
  rcases h with hp | hq | hcand
  · exact Or.inl ((hmem w).2 (Or.inr hp))
  · exact Or.inl ((hmem w).2 (Or.inl hq))
  · exact Or.inr hcand

theorem outputType_of_hasOwnType {types : ValueId → FlowType} {insn : Instruction}
    (h : insn.operation.hasOwnType = true) :
    outputType g b types insn v = insn.operation.ownType (b.value v).type := by
  unfold outputType
  split <;> simp_all [Operation.hasOwnType]

theorem seedInstruction_seeded (hb : b.WellFormed) (hs : s.work.Faithful) :
    (seedInstruction g b s (b.instruction i)).work.Faithful ∧
      ∀ v, (b.instruction i).output = some v ∨ Seeded g b s v →
        Seeded g b (seedInstruction g b s (b.instruction i)) v := by
  unfold seedInstruction
  cases hout : (b.instruction i).output with
  | none => exact ⟨hs, fun v hv => hv.resolve_left (by simp)⟩
  | some w =>
    have hcand := candidate_of_output (g := g) hb hout
    have hphi : (b.value w).isPhi = false := by simp [Value.isPhi, (hb.origin_of_output i w hout).2]
    simp only [Option.some.injEq, eq_comm (a := w), hphi, Bool.false_eq_true, if_false]
    split
    · rename_i index hop
      refine ⟨hs, fun v hv => Seeded.set (fun types => ?_) hv⟩
      rw [hcand, outputType, hop]
    · split
      · rename_i hown
        refine ⟨hs, fun v hv => Seeded.set (fun types => ?_) hv⟩
        rw [hcand, outputType_of_hasOwnType hown]
      · obtain ⟨hqueue, hmem⟩ := hs.push w
        exact ⟨hqueue, fun v hv => Seeded.queue hmem hv⟩

theorem seed_eq_walk (g : Hierarchy) (b : Body) :
    seed g b = b.walk (seedInstruction g b)
      (fun s k => { s with work := s.work.pushAll (b.block k).phis }) {} := rfl

/-- Each value is queued or typed by the block in which it is made. -/
theorem seed_seeded (hb : b.WellFormed) :
    (seed g b).work.Faithful ∧ ∀ v ∈ b.values, Seeded g b (seed g b) v := by
  rw [seed_eq_walk]
  refine Body.walk_collects (s := {}) (P := fun s => s.work.Faithful)
    (Q := fun v s => Seeded g b s v) hb (fun s i hs => seedInstruction_seeded hb hs)
    (fun s k hs => ?_) Worklist.faithful_empty
  obtain ⟨hqueue, hmem⟩ := hs.pushAll (b.block k).phis
  exact ⟨hqueue, fun v hv => Seeded.queue hmem hv⟩

theorem seed_pending (hb : b.WellFormed) :
    Pending g (flow g settings b) (· ∈ b.values) (seed g b) := by
  obtain ⟨hqueue, hseeded⟩ := seed_seeded (g := g) hb
  refine ⟨hqueue, fun v hv => (hseeded v hv).imp_right fun hcand => ?_⟩
  show Covers g (candidate g b _ v) _
  rw [hcand]
  exact Covers.refl g _

/-- **The analysis saturates the types**: each value has what its definition gives it. -/
theorem infer_saturated {types : FlowTyping} (hb : b.WellFormed)
    (h : (infer g settings b).result = .ok types) :
    ∀ v ∈ b.values, Covers g (candidate g b types.typeOf v) (types.typeOf v) := by
  unfold infer at h
  split at h
  · rename_i t hrun
    simp only [Except.ok.injEq] at h
    subst h
    exact fun v hv => run_saturated (flow_complete hb _) (seed_pending hb) hrun hv
  · simp at h

/-- An analysis that ends within some steps gives types, which can be looked at. -/
theorem infer_of_runFor_any {n : Nat} {q : FlowTyping → Bool}
    (h : (runFor g (flow g settings b) n (seed g b)).any
      (fun r => r.2.isNone && q ⟨r.1.types⟩) = true) :
    ∃ types, (infer g settings b).result = .ok types ∧ q types = true := by
  obtain ⟨s, hrun, hq⟩ := run_of_runFor_any (q := fun s => q ⟨s.types⟩) h
  exact ⟨_, by rw [infer, hrun], hq⟩

end FlowTyping

end JvmLowering
