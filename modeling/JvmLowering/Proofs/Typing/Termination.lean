import JvmLowering.Proofs.Typing.VerifierExactness
import Mathlib.Order.WellFounded

/-!
# Propagation ends

No flow type can be moved up for ever, although arrays have any number of dimensions and casts and
array reads may give less where their input has more: what counts is only that each new type is a
join with the old one. A step of the propagation moves a type up or shortens the worklist, so from
every state there are finitely many steps, whatever the flow.

* `FlowType.wellFounded_above`: the ascending chain condition;
* `Propagation.step_cases`: what a step does;
* `Propagation.Stops`, `Propagation.both_stop`: the propagations of flow types and of the verifier's
  types end.
-/

namespace JvmLowering

/-! ### Chains of flow types -/

namespace FlowType

variable {g : Hierarchy} {s t : FlowType}

/-- Strictly above a flow type fewer moves are left. -/
theorem lt_descends (h : lt g s t = true) :
    Prod.Lex (· < ·) (· < ·) (t.tier, t.height g) (s.tier, s.height g) := by
  simp only [lt, Bool.and_eq_true, decide_eq_true_eq, ne_eq] at h
  obtain ⟨hne, hjoin⟩ := h
  have hmoved : join g s t ≠ s := by
    rw [hjoin]
    exact Ne.symm hne
  rcases join_ascends hmoved with htier | ⟨htier, hheight⟩
  · rw [hjoin] at htier
    exact .left _ _ htier
  · rw [hjoin] at htier hheight
    rw [htier]
    exact .right _ hheight

theorem wellFounded_above (g : Hierarchy) : WellFounded fun t s : FlowType => lt g s t = true :=
  Subrelation.wf (fun h => lt_descends h)
    (InvImage.wf (fun t : FlowType => (t.tier, t.height g))
      (WellFoundedRelation.wf.prod_lex WellFoundedRelation.wf))

theorem not_ascending (g : Hierarchy) (chain : Nat → FlowType) :
    ¬ ∀ n, lt g (chain n) (chain (n + 1)) = true := by
  intro hchain
  obtain ⟨-, ⟨n, rfl⟩, hlast⟩ := (wellFounded_above g).has_min (Set.range chain) ⟨_, 0, rfl⟩
  exact hlast (chain (n + 1)) ⟨n + 1, rfl⟩ (hchain n)

end FlowType

namespace Propagation

open FlowType

variable {g : Hierarchy} {f : Flow} {s t : State} {e : Error} {b : Body}

/-! ### Steps -/

/-- A step counts itself, takes a value off the worklist, and either leaves all types as they are or
moves the type of this value strictly up and leaves the others. -/
theorem step_cases (h : step g f s = .continued t) :
    ∃ v work, s.work.pop? = some (v, work) ∧ v.num < f.bound ∧ t.steps = s.steps + 1 ∧
      (t.types = s.types ∧ t.work = work ∨
        lt g (s.types.get v) (t.types.get v) = true ∧ ∀ w, w ≠ v →
          t.types.get w = s.types.get w) := by
  unfold step at h
  split at h
  · simp at h
  · rename_i v work hpop
    split at h
    · rename_i hv
      refine ⟨v, work, hpop, hv, ?_⟩
      simp only at h
      split at h
      · simp at h
      · split at h
        · simp only [Outcome.continued.injEq] at h
          subst h
          exact ⟨rfl, Or.inl ⟨rfl, rfl⟩⟩
        · rename_i hmoved
          simp only [Outcome.continued.injEq] at h
          subst h
          refine ⟨rfl, Or.inr ⟨?_, fun w hw => TypeMap.get_set_of_ne hw⟩⟩
          rw [TypeMap.get_set_self, lt_iff_covers]
          refine ⟨covers_join_left g _ _, fun hback => hmoved ?_⟩
          exact hback.antisymm (covers_join_left g _ _)
    · simp at h

/-- A step that does not shorten the worklist moves a type up. -/
theorem step_progresses (h : step g f s = .continued t) :
    t.work.size < s.work.size ∨
      ∃ v : ValueId, v.num < f.bound ∧ lt g (s.types.get v) (t.types.get v) = true ∧
        ∀ w, w ≠ v → t.types.get w = s.types.get w := by
  obtain ⟨v, work, hpop, hv, -, ⟨-, hwork⟩ | ⟨hlt, hothers⟩⟩ := step_cases h
  · left
    rw [hwork]
    exact Worklist.size_pop? hpop
  · exact Or.inr ⟨v, hv, hlt, hothers⟩

/-! ### Runs -/

/-- A run is one of finitely many steps, and it counts them. -/
theorem run_finite (g : Hierarchy) (f : Flow) (s : State) :
    ∃ n, runFor g f (n + 1) s = some (run g f s) ∧ (run g f s).1.steps = s.steps + n := by
  fun_induction run g f s with
  | case1 s h => exact ⟨0, by simp [runFor, h], rfl⟩
  | case2 s e h => exact ⟨0, by simp [runFor, h], rfl⟩
  | case3 s t h _ ih =>
    obtain ⟨n, hrun, hsteps⟩ := ih
    obtain ⟨-, -, -, -, hstep, -⟩ := step_cases h
    refine ⟨n + 1, ?_, ?_⟩
    · rw [runFor, h]
      exact hrun
    · rw [hsteps, hstep]
      omega

/-- A run that ends with an error ends in a step that is refused. -/
theorem run_refused (h : run g f s = (t, some e)) : step g f t = .refused e := by
  fun_induction run g f s with
  | case1 s hstep => simp at h
  | case2 s e' hstep =>
    obtain ⟨rfl, he⟩ := Prod.mk.inj h
    rw [hstep, Option.some.inj he]
  | case3 s s' hstep _ ih => exact ih h

/-- Where only values that are there are queued, none is ever missed. -/
theorem Queued.run_not_misuse (hbound : f.bound = b.values.size)
    (hdependents : ∀ v, ∀ w ∈ f.dependents v, w ∈ b.values)
    (hrefuse : ∀ v old candidate e, f.refuse v old candidate = some e → e.isMisuse = false)
    (hs : Queued (· ∈ b.values) s) (h : run g f s = (t, some e)) : e.isMisuse = false := by
  have hqueued := (run_preserves (fun _ _ hs hstep => Queued.step hdependents hs hstep) hs h).1
  obtain ⟨v, work, hpop, hmissing | hrefused⟩ := step_refused (run_refused h)
  · rw [hbound] at hmissing
    exact absurd (hqueued.mem_of_pop? hpop) (Nat.not_lt.2 hmissing)
  · exact hrefuse v _ _ e hrefused

/-- From every state the propagation comes to an end. -/
structure Stops (g : Hierarchy) (b : Body) (f : Flow) : Prop where
  /-- A step that does not shorten the worklist moves the type of one of the values strictly up, and
  no other type. -/
  progress : ∀ s t, step g f s = .continued t → t.work.size < s.work.size ∨
    ∃ v ∈ b.values, lt g (s.types.get v) (t.types.get v) = true ∧ ∀ w, w ≠ v →
      t.types.get w = s.types.get w
  /-- The run from a state takes as many values off the worklist as it reports. -/
  finite : ∀ s, ∃ n t e, runFor g f (n + 1) s = some (t, e) ∧ run g f s = (t, e) ∧
    t.steps = s.steps + n
  /-- In a body that is built it does not end at a value that is not there. -/
  existing : b.Built → ∀ s, Queued (· ∈ b.values) s → ∀ t e, run g f s = (t, some e) →
    e.isMisuse = false

theorem stops_of_flow (hbound : f.bound = b.values.size)
    (hdependents : b.WellFormed → ∀ v, ∀ w ∈ f.dependents v, w ∈ b.values)
    (hrefuse : ∀ v old candidate e, f.refuse v old candidate = some e → e.isMisuse = false) :
    Stops g b f where
  progress s t h := by
    refine (step_progresses h).imp_right ?_
    rintro ⟨v, hv, hlt, hothers⟩
    rw [hbound] at hv
    exact ⟨v, hv, hlt, hothers⟩
  finite s := by
    obtain ⟨n, hrun, hsteps⟩ := run_finite g f s
    exact ⟨n, _, _, hrun, rfl, hsteps⟩
  existing hb s hs t e h := hs.run_not_misuse hbound (hdependents hb.wellFormed) hrefuse h

/-- **Both propagations end**, from all types and worklists: no flow type can move up for ever, and
every step that does not shorten the worklist moves one up. -/
theorem both_stop (g : Hierarchy) (b : Body) (settings : Settings) :
    (¬ ∃ chain : Nat → FlowType, ∀ n, lt g (chain n) (chain (n + 1)) = true) ∧
      Stops g b (FlowTyping.flow g settings b) ∧ Stops g b (VerifierTyping.flow g b) := by
  refine ⟨fun ⟨chain, hchain⟩ => not_ascending g chain hchain, stops_of_flow rfl ?_ ?_,
    stops_of_flow rfl ?_ ?_⟩
  · exact fun hb => FlowTyping.mem_values_of_dependents hb
  · intro v old candidate e h
    simp only [FlowTyping.flow, FlowTyping.refuse] at h
    split at h
    · rw [← Option.some.inj h]
      rfl
    · simp at h
  · exact fun hb v w hw => (VerifierTyping.tracked_of_dependents hb v w hw).1
  · intro v old candidate e h
    simp only [VerifierTyping.flow, VerifierTyping.refuse] at h
    split at h
    · simp at h
    · rw [← Option.some.inj h]
      rfl

end Propagation

end JvmLowering
