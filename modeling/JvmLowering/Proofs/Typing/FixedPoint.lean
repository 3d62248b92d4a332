import JvmLowering.Proofs.Typing.Saturation
import Mathlib.Logic.Relation

/-!
# Types settle at a fixed point

Types only move up while they are propagated. Where a candidate follows the types that it hangs on
upwards, the type of the value stays below it all the time, and in the end, when every candidate is
covered, it is the candidate. Cycles of phis leave no room either: whatever is in the cycle has come
into it from a value that is no phi.

* `MonotoneAt`, `Justified`: candidates that follow the types, and types below them;
* `Body.Feeds`, `Bounded`: what reaches a phi, and that the phi has nothing else;
* `FlowTyping.Settled`, `FlowTyping.infer_settled`: the fixed point of a body, and that the analysis
  finds it.
-/

namespace JvmLowering

namespace Propagation

open FlowType

variable {g : Hierarchy} {f f' : Flow} {s t : State} {e : Option Error}
  {P : State → Prop} {v p : ValueId}

/-! ### Types move up -/

theorem step_ascends (h : step g f s = .continued t) (v : ValueId) :
    Covers g (s.types.get v) (t.types.get v) := by
  obtain ⟨w, work, -, ⟨-, htypes, -⟩ | ⟨htypes, -⟩⟩ := step_continued h
  · rw [htypes]
    exact Covers.refl g _
  · rw [htypes, TypeMap.get_set]
    split
    · rename_i hwv
      subst hwv
      exact covers_join_left g _ _
    · exact Covers.refl g _

theorem run_ascends (h : run g f s = (t, e)) (v : ValueId) :
    Covers g (s.types.get v) (t.types.get v) :=
  (run_preserves (P := fun t => ∀ v, Covers g (s.types.get v) (t.types.get v))
    (fun _ _ hs hstep v => (hs v).trans (step_ascends hstep v)) (fun _ => Covers.refl g _) h).1 v

/-! ### Steps that are refused -/

theorem step_refused {e : Error} (h : step g f s = .refused e) :
    ∃ v work, s.work.pop? = some (v, work) ∧
      (f.bound ≤ v.num ∨ f.refuse v (s.types.get v) (f.candidate s.types.get v) = some e) := by
  unfold step at h
  split at h
  · simp at h
  · rename_i v work hpop
    refine ⟨v, work, hpop, ?_⟩
    split at h
    · simp only at h
      split at h
      · rename_i hrefused
        simp only [Outcome.refused.injEq] at h
        exact Or.inr (h ▸ hrefused)
      · split at h <;> simp at h
    · exact Or.inl (Nat.le_of_not_lt ‹_›)

/-- A run of which no step is refused has no error. -/
theorem run_ok (hstep : ∀ s t, P s → step g f s = .continued t → P t)
    (hok : ∀ s e, P s → step g f s ≠ .refused e) (hs : P s) : ∃ t, run g f s = (t, none) := by
  fun_induction run g f s with
  | case1 s h => exact ⟨s, rfl⟩
  | case2 s e h => exact absurd h (hok s e hs)
  | case3 s s' h _ ih => exact ih (hstep s s' hs h)

theorem run_eq (g : Hierarchy) (f : Flow) (s : State) :
    run g f s =
      match step g f s with
      | .settled => (s, none)
      | .refused e => (s, some e)
      | .continued t => run g f t := by
  rw [run]
  split <;> simp only [*]

/-- Flows that make the same steps make the same run. -/
theorem run_congr (hstep : ∀ s t, P s → step g f s = .continued t → P t)
    (heq : ∀ s, P s → step g f' s = step g f s) (hs : P s) : run g f' s = run g f s := by
  fun_induction run g f s with
  | case1 s h => rw [run_eq, heq s hs, h]
  | case2 s e h => rw [run_eq, heq s hs, h]
  | case3 s s' h _ ih =>
    rw [run_eq, heq s hs, h]
    exact ih (hstep s s' hs h)

/-! ### What is queued -/

/-- Only values with a property are queued. -/
structure Queued (p : ValueId → Prop) (s : State) : Prop where
  queue : s.work.Faithful
  mem : ∀ v ∈ s.work.toList, p v

theorem Queued.step {p : ValueId → Prop} (hdependents : ∀ v, ∀ w ∈ f.dependents v, p w)
    (h : Queued p s) (hstep : step g f s = .continued t) : Queued p t := by
  obtain ⟨v, work, hpop, hcases⟩ := step_continued hstep
  have hqueue := h.queue.pop? hpop
  have hmem : ∀ w ∈ work.toList, p w := by
    intro w hw
    refine h.mem w ?_
    rw [Worklist.toList_pop? hpop]
    exact List.mem_cons_of_mem v hw
  rcases hcases with ⟨-, -, hwork⟩ | ⟨-, hwork⟩
  · exact ⟨hwork ▸ hqueue, hwork ▸ hmem⟩
  · obtain ⟨hqueue', hmem'⟩ := hqueue.pushAll (f.dependents v)
    refine ⟨hwork ▸ hqueue', fun w hw => ?_⟩
    rcases (hmem' w).1 (hwork ▸ hw) with hw | hw
    · exact hmem w hw
    · exact hdependents v w hw

theorem Queued.mem_of_pop? {p : ValueId → Prop} {work : Worklist ValueId} (h : Queued p s)
    (hpop : s.work.pop? = some (v, work)) :
    p v := by
  refine h.mem v ?_
  rw [Worklist.toList_pop? hpop]
  exact List.mem_cons_self

/-! ### Candidates that follow the types -/

/-- The candidate of the value moves up with the types. -/
def MonotoneAt (g : Hierarchy) (candidate : (ValueId → FlowType) → ValueId → FlowType)
    (v : ValueId) : Prop :=
  ∀ types types' : ValueId → FlowType, (∀ u, Covers g (types u) (types' u)) →
    Covers g (candidate types v) (candidate types' v)

/-- No value whose candidate follows the types has more than its candidate. -/
def Justified (g : Hierarchy) (candidate : (ValueId → FlowType) → ValueId → FlowType)
    (types : ValueId → FlowType) : Prop :=
  ∀ v, MonotoneAt g candidate v → Covers g (types v) (candidate types v)

theorem Justified.step (h : Justified g f.candidate s.types.get)
    (hstep : step g f s = .continued t) :
    Justified g f.candidate t.types.get := by
  intro v hv
  have hcandidate := hv _ _ (step_ascends hstep)
  obtain ⟨w, work, -, ⟨-, htypes, -⟩ | ⟨htypes, -⟩⟩ := step_continued hstep
  · rw [htypes]
    exact h v hv
  · have hnew : Covers g (t.types.get v) (f.candidate s.types.get v) := by
      rw [htypes, TypeMap.get_set]
      split
      · rename_i hwv
        subst hwv
        exact join_covers_iff.2 ⟨h w hv, Covers.refl g _⟩
      · exact h v hv
    exact hnew.trans hcandidate

/-- A run keeps every type below each family of types that covers its own candidates. -/
theorem run_below {types : ValueId → FlowType} (hmono : ∀ v, MonotoneAt g f.candidate v)
    (hpost : ∀ v, Covers g (f.candidate types v) (types v))
    (hs : ∀ v, Covers g (s.types.get v) (types v)) (hrun : run g f s = (t, e)) (v : ValueId) :
    Covers g (t.types.get v) (types v) := by
  refine (run_preserves (P := fun s => ∀ v, Covers g (s.types.get v) (types v)) ?_ hs hrun).1 v
  intro s t hs hstep v
  obtain ⟨w, work, -, ⟨-, htypes, -⟩ | ⟨htypes, -⟩⟩ := step_continued hstep
  · rw [htypes]
    exact hs v
  · rw [htypes, TypeMap.get_set]
    split
    · rename_i hwv
      subst hwv
      exact join_covers_iff.2 ⟨hs w, (hmono w _ _ hs).trans (hpost w)⟩
    · exact hs v

end Propagation

/-! ### What reaches a phi -/

/-- The first value reaches the second one over operands of phis, of which only those with a
property count. It is no phi itself, so nothing reaches it in turn. -/
def Body.Feeds (b : Body) (counts : ValueId → Bool) (v p : ValueId) : Prop :=
  (b.value v).isPhi = false ∧
    Relation.ReflTransGen (fun q u => u ∈ b.operands q ∧ counts u = true) p v

theorem Body.Feeds.through {b : Body} {counts : ValueId → Bool} {v q p : ValueId}
    (h : b.Feeds counts v q) (hq : q ∈ b.operands p) (hcounts : counts q = true) :
    b.Feeds counts v p :=
  ⟨h.1, .head ⟨hq, hcounts⟩ h.2⟩

/-- What feeds a phi comes in as an operand. -/
theorem Body.Feeds.operand {b : Body} {counts : ValueId → Bool} {v p : ValueId}
    (h : b.Feeds counts v p) (hp : (b.value p).isPhi = true) :
    ∃ q, v ∈ b.operands q ∧ counts v = true := by
  obtain ⟨hv, hpath⟩ := h
  cases hpath with
  | refl => rw [hp] at hv; exact Bool.noConfusion hv
  | tail _ hlast => exact ⟨_, hlast⟩

theorem Body.Feeds.mem_values {b : Body} {counts : ValueId → Bool} {v p : ValueId}
    (hb : b.WellFormed) (h : b.Feeds counts v p) (hp : (b.value p).isPhi = true) :
    v ∈ b.values := by
  obtain ⟨q, hq, -⟩ := h.operand hp
  exact hb.operands_mem q v hq

namespace Propagation

open FlowType

variable {g : Hierarchy} {f : Flow} {s t : State} {b : Body} {counts : ValueId → Bool} {p : ValueId}
  {types : ValueId → FlowType}

/-- Every value has at most what those that feed it have. -/
def Bounded (g : Hierarchy) (b : Body) (counts : ValueId → Bool) (types : ValueId → FlowType) :
    Prop :=
  ∀ p u, (∀ v, b.Feeds counts v p → Covers g (types v) u) → Covers g (types p) u

theorem Bounded.step
    (hphi : ∀ types p, (b.value p).isPhi = true →
      f.candidate types p = joinAll g ((b.operands p).map types))
    (hbottom : ∀ v, counts v = false → s.types.get v = .bottom) (h : Bounded g b counts s.types.get)
    (hstep : step g f s = .continued t) : Bounded g b counts t.types.get := by
  have hold : ∀ q u, (∀ v, b.Feeds counts v q → Covers g (t.types.get v) u) →
      Covers g (s.types.get q) u :=
    fun q u hq => h q u fun v hv => (step_ascends hstep v).trans (hq v hv)
  obtain ⟨w, work, -, ⟨-, htypes, -⟩ | ⟨htypes, -⟩⟩ := step_continued hstep
  · rw [htypes]
    exact h
  · intro p u hu
    by_cases hwp : w = p
    · subst hwp
      have hself : t.types.get w = (s.types.get w).join g (f.candidate s.types.get w) := by
        rw [htypes, TypeMap.get_set_self]
      rw [hself]
      refine join_covers_iff.2 ⟨hold w u hu, ?_⟩
      cases hw : (b.value w).isPhi with
      | true =>
        rw [hphi _ _ hw, joinAll_covers_iff]
        intro type htype
        obtain ⟨x, hx, rfl⟩ := List.mem_map.1 htype
        cases hcounts : counts x with
        | true => exact hold x u fun v hv => hu v (hv.through hx hcounts)
        | false =>
          rw [hbottom x hcounts]
          trivial
      | false =>
        -- a value that is no phi feeds itself
        have hnew := hu w ⟨hw, .refl⟩
        rw [hself] at hnew
        exact (join_covers_iff.1 hnew).2
    · rw [htypes, TypeMap.get_set_of_ne (Ne.symm hwp)]
      exact hold p u hu

/-- Where each phi covers its operands, it has exactly what feeds it. -/
theorem Bounded.eq_joinAll (hb : b.WellFormed) (h : Bounded g b counts types)
    (hcovered : ∀ q v, counts q = true → v ∈ b.operands q → counts v = true →
      Covers g (types v) (types q)) (hp : (b.value p).isPhi = true) (hcounts : counts p = true) :
    ∃ sources : List ValueId, (∀ v, v ∈ sources ↔ b.Feeds counts v p) ∧
      types p = joinAll g (sources.map types) := by
  classical
  refine ⟨b.values.indices.filter fun v => b.Feeds counts v p, fun v => ?_, ?_⟩
  · rw [List.mem_filter, Table.mem_indices, decide_eq_true_eq]
    exact and_iff_right_of_imp fun hv => hv.mem_values hb hp
  have hmem : ∀ v, b.Feeds counts v p →
      types v ∈ (b.values.indices.filter fun v => b.Feeds counts v p).map types := by
    intro v hv
    refine List.mem_map_of_mem (List.mem_filter.2 ⟨Table.mem_indices.2 (hv.mem_values hb hp), ?_⟩)
    exact decide_eq_true hv
  refine Covers.antisymm (g := g) (h p _ fun v hv => ?_) (joinAll_covers_iff.2 fun type htype => ?_)
  · exact joinAll_covers_iff.1 (Covers.refl g _) _ (hmem v hv)
  · obtain ⟨v, hv, rfl⟩ := List.mem_map.1 htype
    obtain ⟨-, hpath⟩ : b.Feeds counts v p := of_decide_eq_true (List.mem_filter.1 hv).2
    have hreached : counts v = true ∧ Covers g (types v) (types p) := by
      clear hv htype
      induction hpath with
      | refl => exact ⟨hcounts, Covers.refl g _⟩
      | tail _ hlast ih => exact ⟨hlast.2, (hcovered _ _ ih.1 hlast.1 hlast.2).trans ih.2⟩
    exact hreached.2

end Propagation

namespace FlowTyping

open FlowType Propagation

variable {g : Hierarchy} {b : Body} {settings settings' : Settings} {s t : State} {v p : ValueId}
  {i : InsnId} {types types' : ValueId → FlowType}

/-! ### Candidates of a body -/

/-- The value is made neither by a cast nor by an array read, which may give less where their input
has more. -/
def Steady (b : Body) (v : ValueId) : Prop :=
  ∀ insn ∈ b.definition? v, insn.operation ≠ .arrayGet ∧ ∀ t, insn.operation ≠ .checkCast t

theorem steady_of_phi (hp : (b.value p).isPhi = true) : Steady b p := by
  intro insn hinsn
  obtain ⟨k, ho⟩ := Body.origin_of_isPhi hp
  simp [Body.definition?, Value.definition?, ho] at hinsn

theorem candidate_of_phi (hp : (b.value p).isPhi = true) (types : ValueId → FlowType) :
    candidate g b types p = joinAll g ((b.operands p).map types) := by
  obtain ⟨k, ho⟩ := Body.origin_of_isPhi hp
  simp [candidate, ho]

theorem candidate_of_notMem (hv : v ∉ b.values) (types : ValueId → FlowType) :
    candidate g b types v = .bottom := by
  simp [candidate, Body.definition?, Value.definition?, Body.value_of_notMem hv, default]

theorem firstInput_mono (h : ∀ u, Covers g (types u) (types' u)) (insn : Instruction) :
    Covers g (firstInput types insn) (firstInput types' insn) := by
  unfold firstInput
  cases insn.inputs.head? with
  | none => trivial
  | some u => exact h u

theorem Steady.monotoneAt (hv : Steady b v) : MonotoneAt g (candidate g b) v := by
  intro types types' h
  unfold candidate
  split
  · refine joinAll_covers_iff.2 fun type htype => ?_
    obtain ⟨u, hu, rfl⟩ := List.mem_map.1 htype
    exact (h u).trans (joinAll_covers_iff.1 (Covers.refl g _) _ (List.mem_map_of_mem hu))
  · split
    · rename_i insn hinsn
      obtain ⟨hget, hcast⟩ := hv insn hinsn
      unfold outputType
      split
      · exact Covers.refl g _
      · exact absurd ‹_› (hcast _)
      · exact absurd ‹_› hget
      · exact firstInput_mono h insn
      · exact firstInput_mono h insn
      · exact Covers.refl g _
    · trivial

theorem steady_of_output (hb : b.WellFormed) (hout : (b.instruction i).output = some v)
    (hget : (b.instruction i).operation ≠ .arrayGet)
    (hcast : ∀ t, (b.instruction i).operation ≠ .checkCast t) : Steady b v := by
  intro insn hinsn
  rw [Body.definition?, Value.definition?, (hb.origin_of_output i v hout).2, Option.map_some,
    Option.mem_some] at hinsn
  subst hinsn
  exact ⟨hget, hcast⟩

/-! ### No update is refused -/

/-- Every value that is looked at is there, and nothing has more than it should. -/
structure Sound (g : Hierarchy) (b : Body) (s : State) : Prop where
  queued : Queued (· ∈ b.values) s
  justified : Justified g (candidate g b) s.types.get

theorem mem_values_of_dependents (hb : b.WellFormed) (v : ValueId) :
    ∀ w ∈ dependents b v, w ∈ b.values := by
  intro w hw
  rcases List.mem_append.1 hw with hw | hw
  · obtain ⟨i, -, hi⟩ := List.mem_filterMap.1 hw
    unfold inferredOutput? at hi
    split at hi
    · simp at hi
    · exact (hb.origin_of_output i w hi).1
  · exact Body.mem_values_of_isPhi
      (Body.isPhi_of_operand ((hb.mem_phiReaders v w).1 (Std.TreeSet.mem_toList.1 hw)))

theorem Sound.step (hb : b.WellFormed) (h : Sound g b s)
    (hstep : step g (flow g settings b) s = .continued t) : Sound g b t :=
  ⟨h.queued.step (mem_values_of_dependents hb) hstep,
    h.justified.step (f := flow g settings b) hstep⟩

/-- A phi is never asked to move down. -/
theorem Sound.refuse_eq_none (h : Sound g b s) (settings : Settings) (v : ValueId) :
    refuse g settings b v (s.types.get v) (candidate g b s.types.get v) = none := by
  unfold refuse
  rw [if_neg]
  simp only [Bool.and_eq_true, decide_eq_true_eq, not_and, Classical.not_not]
  intro hphi
  exact covers_iff_join_eq.1 (h.justified v (steady_of_phi hphi.1).monotoneAt)

theorem Sound.step_ne_refused (h : Sound g b s) (e : Error) :
    Propagation.step g (flow g settings b) s ≠ .refused e := by
  intro hrefused
  obtain ⟨v, work, hpop, hbound | hrefuse⟩ := step_refused hrefused
  · exact Nat.not_lt.2 hbound (h.queued.mem_of_pop? hpop)
  · have hnone := h.refuse_eq_none settings v
    exact absurd (hnone.symm.trans hrefuse) (by simp)

/-- The settings do not matter. -/
theorem Sound.step_congr (h : Sound g b s) :
    Propagation.step g (flow g settings' b) s = Propagation.step g (flow g settings b) s := by
  unfold Propagation.step
  simp only [flow, h.refuse_eq_none]
  rfl

theorem Sound.run_ok (hb : b.WellFormed) (h : Sound g b s) (settings : Settings) :
    ∃ t, run g (flow g settings b) s = (t, none) ∧ Sound g b t ∧ ∀ settings',
      run g (flow g settings' b) s = (t, none) := by
  have hstep : ∀ s t, Sound g b s → Propagation.step g (flow g settings b) s = .continued t →
      Sound g b t :=
    fun _ _ hs hst => hs.step hb hst
  obtain ⟨t, ht⟩ := Propagation.run_ok hstep (fun _ e hs => hs.step_ne_refused e) h
  exact ⟨t, ht, (run_preserves hstep h ht).1,
    fun settings' => (run_congr hstep (fun _ hs => hs.step_congr) h).trans ht⟩

/-! ### Where the analysis starts -/

/-- A value has no type at the start, or all that it will ever have. -/
theorem seed_types (hb : b.WellFormed) (v : ValueId) :
    (seed g b).types.get v = .bottom ∨ ∀ types, candidate g b types v = (seed g b).types.get v := by
  rw [seed_eq_walk]
  refine Body.walk_preserves (P := fun s : State => ∀ v, s.types.get v = .bottom ∨ ∀ types,
    candidate g b types v = s.types.get v) (fun s i hs => ?_) (fun s k hs => ?_)
    (fun v => Or.inl ?_) v
  -- a type that is set is what the definition gives under any types
  · have hset : ∀ w type, (∀ types, candidate g b types w = type) →
        ∀ v, (s.types.set w type).get v = .bottom ∨ ∀ types,
        candidate g b types v = (s.types.set w type).get v := by
      intro w type hw v
      rw [TypeMap.get_set]
      split
      · rename_i hwv
        exact Or.inr (hwv ▸ hw)
      · exact hs v
    unfold seedInstruction
    split
    · exact hs
    · rename_i w hout
      split
      · rename_i index hop
        refine hset w _ fun types => ?_
        rw [candidate_of_output hb hout, outputType, hop]
      · split
        · exact hs
        · split
          · rename_i hown
            refine hset w _ fun types => ?_
            rw [candidate_of_output hb hout, outputType_of_hasOwnType hown]
          · exact hs
  · exact hs
  · simp [TypeMap.get]

theorem seed_sound (hb : b.WellFormed) : Sound g b (seed g b) := by
  refine ⟨?_, fun v _ => ?_⟩
  -- only outputs and phis of the body are queued
  · rw [seed_eq_walk]
    refine Body.walk_preserves (fun s i hs => ?_) (fun s k hs => ?_)
      ⟨Worklist.faithful_empty, by simp [Worklist.toList]⟩
    · unfold seedInstruction
      split
      · exact hs
      · rename_i w hout
        split
        · exact ⟨hs.queue, hs.mem⟩
        · split
          · exact hs
          · split
            · exact ⟨hs.queue, hs.mem⟩
            · obtain ⟨hqueue, hmem⟩ := hs.queue.push w
              refine ⟨hqueue, fun v hv => ?_⟩
              rcases (hmem v).1 hv with hv | rfl
              · exact hs.mem v hv
              · exact (hb.origin_of_output i v hout).1
    · obtain ⟨hqueue, hmem⟩ := hs.queue.pushAll (b.block k).phis
      refine ⟨hqueue, fun v hv => ?_⟩
      rcases (hmem v).1 hv with hv | hv
      · exact hs.mem v hv
      · exact hb.mem_values_of_phi hv
  · rcases seed_types (g := g) hb v with hbottom | hcandidate
    · rw [hbottom]
      trivial
    · rw [hcandidate]
      exact Covers.refl g _

/-- The analysis ends without an error, whatever the settings. -/
theorem infer_ok (hb : b.WellFormed) (settings : Settings) :
    ∃ types, (infer g settings b).result = .ok types ∧ Sound g b { types := types.types } ∧
      ∀ settings', (infer g settings' b).result = .ok types := by
  obtain ⟨t, ht, hsound, hsettings⟩ := (seed_sound (g := g) hb).run_ok hb settings
  refine ⟨⟨t.types⟩, by simp [infer, ht],
    ⟨⟨Worklist.faithful_empty, by simp [Worklist.toList]⟩, hsound.justified⟩,
    fun settings' => by simp [infer, hsettings]⟩

/-! ### Where it ends -/

/-- A fixed point: arguments and outputs of operations that fix them have their types, casts, array
reads, loads and stores have at least what they give for the type of their first input, and phis
have the join of their operands. -/
structure Settled (g : Hierarchy) (b : Body) (types : ValueId → FlowType) : Prop where
  argument : ∀ i v index, (b.instruction i).output = some v →
    (b.instruction i).operation = .argument index →
    types v = b.argumentType g index v
  own : ∀ i v, (b.instruction i).output = some v → (b.instruction i).operation.hasOwnType = true →
    types v = (b.instruction i).operation.ownType (b.value v).type
  checkCast : ∀ i v t, (b.instruction i).output = some v →
    (b.instruction i).operation = .checkCast t →
    le g ((firstInput types (b.instruction i)).checkCast g t) (types v) = true
  arrayGet : ∀ i v, (b.instruction i).output = some v → (b.instruction i).operation = .arrayGet →
    le g (firstInput types (b.instruction i)).arrayGet (types v) = true
  copy : ∀ i v, (b.instruction i).output = some v →
    (b.instruction i).operation = .load ∨ (b.instruction i).operation = .store →
    le g (firstInput types (b.instruction i)) (types v) = true
  phi : ∀ p, (b.value p).isPhi = true → types p = joinAll g ((b.operands p).map types)

theorem settled_of_justified (hb : b.WellFormed) (hj : Justified g (candidate g b) types)
    (hsaturated : ∀ v ∈ b.values, Covers g (candidate g b types v) (types v)) :
    Settled g b types := by
  -- a type that cannot be too large is exactly what its definition gives
  have hfixed : ∀ v ∈ b.values, Steady b v → types v = candidate g b types v :=
    fun v hv hsteady => (hj v hsteady.monotoneAt).antisymm (hsaturated v hv)
  -- all others cover it
  have hrule : ∀ i v, (b.instruction i).output = some v →
      Covers g (outputType g b types (b.instruction i) v) (types v) := by
    intro i v hout
    rw [← candidate_of_output hb hout]
    exact hsaturated v (hb.origin_of_output i v hout).1
  refine ⟨fun i v index hout hop => ?_, fun i v hout hown => ?_, fun i v t hout hop => ?_,
    fun i v hout hop => ?_, fun i v hout hop => ?_, fun p hp => ?_⟩
  · have hsteady : Steady b v := steady_of_output hb hout (by simp [hop]) (by simp [hop])
    rw [hfixed v (hb.origin_of_output i v hout).1 hsteady, candidate_of_output hb hout,
      outputType, hop]
  · have hsteady : Steady b v := by
      refine steady_of_output hb hout (fun hop => ?_) fun t hop => ?_ <;>
        simp [hop, Operation.hasOwnType] at hown
    rw [hfixed v (hb.origin_of_output i v hout).1 hsteady, candidate_of_output hb hout,
      outputType_of_hasOwnType hown]
  · have hcovers := hrule i v hout
    rw [outputType, hop] at hcovers
    exact le_iff_covers.2 hcovers
  · have hcovers := hrule i v hout
    rw [outputType, hop] at hcovers
    exact le_iff_covers.2 hcovers
  · have hcovers := hrule i v hout
    refine le_iff_covers.2 ?_
    rcases hop with hop | hop <;> rw [outputType, hop] at hcovers <;> exact hcovers
  · rw [hfixed p (Body.mem_values_of_isPhi hp) (steady_of_phi hp), candidate_of_phi hp]

/-- Nothing is in a phi but what feeds it, from the start on. -/
theorem infer_bounded (hb : b.WellFormed) {types : FlowTyping}
    (h : (infer g settings b).result = .ok types) :
    Bounded g b (fun _ => true) types.typeOf := by
  -- phis are at the bottom in the beginning, and are their own sources otherwise
  have hseed : Bounded g b (fun _ => true) (seed g b).types.get := by
    intro p u hu
    cases hp : (b.value p).isPhi with
    | false => exact hu p ⟨hp, .refl⟩
    | true =>
      have hbottom : (seed g b).types.get p = .bottom := by
        refine (seed_types hb p).elim id fun hcandidate => ?_
        rw [← hcandidate fun _ => .bottom, candidate_of_phi hp]
        refine (joinAll_covers_iff (g := g).2 fun type htype => ?_).antisymm trivial
        obtain ⟨_, -, rfl⟩ := List.mem_map.1 htype
        trivial
      rw [hbottom]
      trivial
  unfold infer at h
  split at h
  · rename_i t hrun
    simp only [Except.ok.injEq] at h
    subst h
    exact (run_preserves (P := fun s => Bounded g b (fun _ => true) s.types.get)
      (fun _ _ hs hstep =>
      hs.step (f := flow g settings b) (fun types p hp => candidate_of_phi hp types)
      (fun _ hcounts => Bool.noConfusion hcounts) hstep) hseed hrun).1
  · simp at h

/-- **The analysis finds a fixed point, and nothing in it is spurious**: a phi has the join of all
values that feed it through phis. -/
theorem infer_settled (hb : b.Built) {types : FlowTyping}
    (h : (infer g settings b).result = .ok types) :
    Settled g b types.typeOf ∧
      ∀ p, (b.value p).isPhi = true → ∃ sources : List ValueId,
        (∀ v, v ∈ sources ↔ b.Feeds (fun _ => true) v p) ∧
          types.typeOf p = joinAll g (sources.map types.typeOf) := by
  have hw := hb.wellFormed
  have hsaturated := infer_saturated hw h
  have hjustified : Justified g (candidate g b) types.typeOf := by
    obtain ⟨types', h', hsound, -⟩ := infer_ok (g := g) hw settings
    obtain rfl : types' = types := Except.ok.inj (h'.symm.trans h)
    exact hsound.justified
  refine ⟨settled_of_justified hw hjustified hsaturated, fun p hp => ?_⟩
  refine (infer_bounded hw h).eq_joinAll hw (fun q v _ hv _ => ?_) hp rfl
  have hq := Body.isPhi_of_operand hv
  have hcovers := hsaturated q (Body.mem_values_of_isPhi hq)
  rw [candidate_of_phi hq, joinAll_covers_iff] at hcovers
  exact hcovers _ (List.mem_map_of_mem hv)

/-- Two phis that feed each other: an `Integer` comes into the first one, and a cast of the second
one into the second. -/
def castLoop : Body := .ofSteps ⟨0⟩
  [.block, .block, .block, .edge ⟨0⟩ ⟨1⟩, .edge ⟨2⟩ ⟨1⟩, .edge ⟨1⟩ ⟨2⟩, .edge ⟨2⟩ ⟨2⟩,
   .instruction ⟨0⟩ (.newInstance ⟨8⟩) [] (some (.field (.object ⟨8⟩))),
   .phi ⟨1⟩ (.field (.object ⟨7⟩)), .phi ⟨2⟩ (.field (.object ⟨7⟩)),
   .instruction ⟨2⟩ (.checkCast (.object ⟨9⟩)) [⟨2⟩] (some (.field (.object ⟨9⟩))),
   .operand ⟨1⟩ ⟨0⟩, .operand ⟨1⟩ ⟨2⟩, .operand ⟨2⟩ ⟨1⟩, .operand ⟨2⟩ ⟨3⟩]

/-- Both the `Integer` and the cast are in the first phi of the loop. -/
theorem infer_settled_castLoop :
    ∃ types, (infer .platform {} castLoop).result = .ok types ∧
      Settled .platform castLoop types.typeOf ∧
      ∃ sources : List ValueId, ⟨0⟩ ∈ sources ∧ ⟨3⟩ ∈ sources ∧
        types.typeOf ⟨1⟩ = joinAll .platform (sources.map types.typeOf) := by
  have hb : castLoop.Built := Body.built_ofSteps _ _
  obtain ⟨types, h, -, -⟩ := infer_ok (g := .platform) hb.wellFormed {}
  obtain ⟨hsettled, hphis⟩ := infer_settled hb h
  obtain ⟨sources, hsources, heq⟩ := hphis ⟨1⟩ (by decide +kernel)
  refine ⟨types, h, hsettled, sources, (hsources _).2 ⟨by decide +kernel, ?_⟩,
    (hsources _).2 ⟨by decide +kernel, ?_⟩, heq⟩
  · exact .single ⟨by decide +kernel, rfl⟩
  · exact .head (b := ⟨2⟩) ⟨by decide +kernel, rfl⟩ (.single ⟨by decide +kernel, rfl⟩)

end FlowTyping

end JvmLowering
