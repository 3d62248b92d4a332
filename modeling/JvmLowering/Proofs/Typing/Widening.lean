import JvmLowering.Proofs.Body.Extension
import JvmLowering.Proofs.Typing.FixedPoint

/-!
# Types of bodies that grow

An analysis can be followed by rounds, each of which builds on and then looks again at some values.
No value has more than its definition gives it, and building on keeps this, since operands of phis
are only added. So no update is ever refused, and types only move up. Rounds that look at all that
has changed end in a fixed point, and without casts and array reads it is the one that an analysis
of the last body finds: both are the least.

* `Round`, `history`: a round, and an analysis that is followed by rounds;
* `Least`: types that are below every family of types that covers its candidates;
* `history_ascends`: what holds of every history.
-/

namespace JvmLowering

/-- Some steps of building, after which some values are looked at again. -/
structure Round where
  steps : List Body.Construction
  values : List ValueId

namespace Round

def build (r : Round) (b : Body) : Body := r.steps.foldl Body.construct b

/-- All values to look at are there. -/
def Existing (b : Body) (r : Round) : Prop := ∀ v ∈ r.values, v ∈ (r.build b).values

/-- The values to look at include all that are new and all phis that have new operands. -/
def Thorough (b : Body) (r : Round) : Prop :=
  ∀ v ∈ (r.build b).values, v ∉ b.values ∨ (r.build b).operands v ≠ b.operands v → v ∈ r.values

/-- The body after some rounds. -/
def buildAll (rounds : List Round) (b : Body) : Body := rounds.foldl (fun b r => r.build b) b

/-- Each round has a property, given the body before it. -/
def Each (P : Body → Round → Prop) : Body → List Round → Prop
  | _, [] => True
  | b, r :: rounds => P b r ∧ Each P (r.build b) rounds

variable {b : Body} {P : Body → Round → Prop} {rounds later : List Round}

theorem each_append :
    Each P b (rounds ++ later) ↔ Each P b rounds ∧ Each P (buildAll rounds b) later := by
  induction rounds generalizing b with
  | nil => simp [Each, buildAll]
  | cons r rounds ih => simp [Each, ih, and_assoc, buildAll]

theorem build_built (hb : b.Built) (r : Round) : (r.build b).Built :=
  List.foldlRecOn r.steps Body.construct hb fun _ h step _ => h.construct step

theorem build_extends (hb : b.Built) (r : Round) : b.Extends (r.build b) :=
  Body.extends_foldl hb r.steps

theorem buildAll_built (hb : b.Built) (rounds : List Round) : (buildAll rounds b).Built :=
  List.foldlRecOn rounds _ hb fun _ h r _ => build_built h r

theorem buildAll_extends (hb : b.Built) (rounds : List Round) : b.Extends (buildAll rounds b) := by
  induction rounds generalizing b with
  | nil => exact .refl b
  | cons r rounds ih => exact (build_extends hb r).trans (ih (build_built hb r))

end Round

namespace FlowTyping

open FlowType Propagation Round

variable {g : Hierarchy} {b b' : Body} {t : FlowTyping} {v : ValueId} {types : ValueId → FlowType}
  {rounds : List Round}

/-! ### Histories -/

/-- The types after some rounds, with settings for each of them. -/
def replay (g : Hierarchy) (settings : Nat → Settings) (b : Body) (t : FlowTyping) :
    List Round → Except Error FlowTyping
  | [] => .ok t
  | r :: rounds =>
    match (t.widen g (settings 0) (r.build b) r.values).result with
    | (t', none) => replay g (fun n => settings (n + 1)) (r.build b) t' rounds
    | (_, some e) => .error e

/-- An analysis that is followed by some rounds. -/
def history (g : Hierarchy) (settings : Nat → Settings) (b : Body) (rounds : List Round) :
    Except Error FlowTyping :=
  match (infer g (settings 0) b).result with
  | .ok t => replay g (fun n => settings (n + 1)) b t rounds
  | .error e => .error e

theorem replay_append {settings : Nat → Settings} {t' : FlowTyping}
    (h : replay g settings b t rounds = .ok t') (later : List Round) :
    replay g settings b t (rounds ++ later) =
      replay g (fun n => settings (n + rounds.length)) (buildAll rounds b) t' later := by
  induction rounds generalizing settings b t with
  | nil =>
    obtain rfl : t = t' := Except.ok.inj h
    rfl
  | cons r rounds ih =>
    rw [List.cons_append, replay]
    rw [replay] at h
    split at h
    · exact ih h
    · simp at h

/-! ### Candidates in a body that grows -/

theorem candidate_of_not_phi (hp : (b.value v).isPhi = false) :
    candidate g b types v = (b.definition? v).elim .bottom fun insn =>
      outputType g b types insn v := by
  unfold candidate
  split
  · simp [Value.isPhi, *] at hp
  · split <;> simp [*]

/-- What an instruction gives hangs on the method and the declared type alone. -/
theorem outputType_of_extends (h : b.Extends b') (hv : v ∈ b.values) (insn : Instruction) :
    outputType g b' types insn v = outputType g b types insn v := by
  unfold outputType
  split <;> simp only [Body.argumentType, h.method, h.type v hv]

/-- Where no operand is added, a candidate stays what it was. -/
theorem candidate_of_extends (h : b.Extends b') (hv : v ∈ b.values)
    (hoperands : b'.operands v = b.operands v) :
    candidate g b' types v = candidate g b types v := by
  have hphi := h.isPhi v hv
  cases hp : (b.value v).isPhi with
  | true => rw [candidate_of_phi hp, candidate_of_phi (hphi.trans hp), hoperands]
  | false =>
    rw [candidate_of_not_phi hp, candidate_of_not_phi (hphi.trans hp), h.definition v hv]
    simp only [outputType_of_extends h hv]

/-- Only phis have operands, so all other candidates stay. -/
theorem candidate_of_extends_of_not_phi (h : b.Extends b') (hv : v ∈ b.values)
    (hp : (b.value v).isPhi = false) :
    candidate g b' types v = candidate g b types v := by
  have hnone : ∀ c : Body, (c.value v).isPhi = false → c.operands v = [] := by
    intro c hc
    refine List.eq_nil_iff_forall_not_mem.2 fun u hu => ?_
    rw [Body.isPhi_of_operand hu] at hc
    exact Bool.noConfusion hc
  exact candidate_of_extends h hv ((hnone b' ((h.isPhi v hv).trans hp)).trans (hnone b hp).symm)

/-- Candidates only move up. -/
theorem candidate_ascends (h : b.Extends b') :
    Covers g (candidate g b types v) (candidate g b' types v) := by
  by_cases hv : v ∈ b.values
  · cases hp : (b.value v).isPhi with
    | true =>
      rw [candidate_of_phi hp, candidate_of_phi ((h.isPhi v hv).trans hp), joinAll_covers_iff]
      intro type htype
      exact joinAll_covers_iff.1 (Covers.refl g _) _
        ((List.map_subset types (h.operands v).subset) htype)
    | false =>
      rw [candidate_of_extends_of_not_phi h hv hp]
      exact Covers.refl g _
  · rw [candidate_of_notMem hv]
    trivial

theorem justified_of_extends (h : b.Extends b') (hj : Justified g (candidate g b) types) :
    Justified g (candidate g b') types := by
  intro v hmono
  refine Covers.trans (hj v ?_) (candidate_ascends h)
  by_cases hv : v ∈ b.values
  · cases hp : (b.value v).isPhi with
    | true => exact (steady_of_phi hp).monotoneAt
    | false =>
      intro types types' hle
      rw [← candidate_of_extends_of_not_phi h hv hp, ← candidate_of_extends_of_not_phi h hv hp]
      exact hmono types types' hle
  · intro types types' _
    rw [candidate_of_notMem hv]
    trivial

theorem steady_of_operations
    (h : ∀ i ∈ b.instructions, (b.instruction i).operation ≠ .arrayGet ∧ ∀ t,
      (b.instruction i).operation ≠ .checkCast t) (v : ValueId) : Steady b v := by
  intro insn hinsn
  obtain ⟨i, -, rfl⟩ := Option.map_eq_some_iff.1 hinsn
  by_cases hi : i ∈ b.instructions
  · exact h i hi
  · simp [Body.instruction_of_notMem hi, default]

theorem steady_of_extends (h : b.Extends b') (hsteady : ∀ v, Steady b' v) (v : ValueId) :
    Steady b v := by
  intro insn hinsn
  by_cases hv : v ∈ b.values
  · exact hsteady v insn ((h.definition v hv).symm ▸ hinsn)
  · simp [Body.definition?, Value.definition?, Body.value_of_notMem hv, default] at hinsn

/-! ### Types that are least -/

/-- Below every family of types that covers its own candidates. -/
def Least (g : Hierarchy) (b : Body) (types : ValueId → FlowType) : Prop :=
  ∀ types' : ValueId → FlowType, (∀ v, Covers g (candidate g b types' v) (types' v)) →
    ∀ v, Covers g (types v) (types' v)

theorem least_of_extends (h : b.Extends b') (hleast : Least g b types) : Least g b' types :=
  fun types' hpost => hleast types' fun v => (candidate_ascends h).trans (hpost v)

/-- There is one family of least types that covers its candidates. -/
theorem Least.eq {types' : ValueId → FlowType} (h : Least g b types) (h' : Least g b types')
    (hsaturated : ∀ v ∈ b.values, Covers g (candidate g b types v) (types v))
    (hsaturated' : ∀ v ∈ b.values, Covers g (candidate g b types' v) (types' v)) (v : ValueId) :
    types v = types' v := by
  have hpost : ∀ types : ValueId → FlowType,
      (∀ v ∈ b.values, Covers g (candidate g b types v) (types v)) →
      ∀ v, Covers g (candidate g b types v) (types v) := by
    intro types hsaturated v
    by_cases hv : v ∈ b.values
    · exact hsaturated v hv
    · rw [candidate_of_notMem hv]
      trivial
  exact (h types' (hpost types' hsaturated') v).antisymm (h' types (hpost types hsaturated) v)

theorem infer_least {settings : Settings} (hb : b.WellFormed) (hsteady : ∀ v, Steady b v)
    (h : (infer g settings b).result = .ok t) : Least g b t.typeOf := by
  intro types hpost
  unfold infer at h
  split at h
  · rename_i s hrun
    simp only [Except.ok.injEq] at h
    subst h
    refine run_below (f := flow g settings b) (fun v => (hsteady v).monotoneAt) hpost
      (fun v => ?_) hrun
    rcases seed_types (g := g) hb v with hbottom | hcandidate
    · rw [hbottom]
      trivial
    · rw [← hcandidate types]
      exact hpost v
  · simp at h

/-! ### One round -/

/-- What a widening does to types that have no more than they should. -/
theorem widen_ok {values : List ValueId} (hb : b.WellFormed)
    (hj : Justified g (candidate g b) t.typeOf) (hvalues : ∀ v ∈ values, v ∈ b.values) :
    ∃ t' : FlowTyping, (∀ settings, (t.widen g settings b values).result = (t', none)) ∧
      Justified g (candidate g b) t'.typeOf ∧ (∀ v, Covers g (t.typeOf v) (t'.typeOf v)) ∧
      ((∀ v ∈ b.values, v ∈ values ∨ Covers g (candidate g b t.typeOf v) (t.typeOf v)) →
        ∀ v ∈ b.values, Covers g (candidate g b t'.typeOf v) (t'.typeOf v)) ∧
      ((∀ v, Steady b v) → Least g b t.typeOf → Least g b t'.typeOf) := by
  obtain ⟨hqueue, hmem⟩ := (Worklist.faithful_empty (α := ValueId)).pushAll values
  have hmem' : ∀ v, v ∈ (Worklist.empty.pushAll values).toList ↔ v ∈ values := by
    intro v
    rw [hmem]
    simp [Worklist.empty, Worklist.toList]
  have hsound : Sound g b { work := Worklist.empty.pushAll values, types := t.types } :=
    ⟨⟨hqueue, fun v hv => hvalues v ((hmem' v).1 hv)⟩, hj⟩
  obtain ⟨s, hrun, hs, hsettings⟩ := hsound.run_ok hb {}
  refine ⟨⟨s.types⟩, fun settings => by simp [widen, hsettings], hs.justified,
    fun v => run_ascends hrun v, ?_, ?_⟩
  · intro hcovered v hv
    refine run_saturated (p := (· ∈ b.values)) (flow_complete hb _) ⟨hqueue, fun v hv => ?_⟩ hrun hv
    exact (hcovered v hv).imp_left (hmem' v).2
  · intro hsteady hleast types hpost
    exact run_below (f := flow g {} b)
      (s := { work := Worklist.empty.pushAll values, types := t.types })
      (fun v => (hsteady v).monotoneAt) hpost (hleast types hpost) hrun

/-! ### Some rounds -/

/-- What some rounds do to types that have no more than they should. -/
theorem replay_ok (hb : b.Built) (hj : Justified g (candidate g b) t.typeOf)
    (hrounds : Each Existing b rounds) :
    ∃ t' : FlowTyping, (∀ settings, replay g settings b t rounds = .ok t') ∧
      Justified g (candidate g (buildAll rounds b)) t'.typeOf ∧
        (∀ v, Covers g (t.typeOf v) (t'.typeOf v)) ∧
      (Each Thorough b rounds → (∀ v ∈ b.values, Covers g (candidate g b t.typeOf v) (t.typeOf v)) →
        ∀ v ∈ (buildAll rounds b).values, Covers g (candidate g (buildAll rounds b) t'.typeOf v)
          (t'.typeOf v)) ∧
      ((∀ v, Steady (buildAll rounds b) v) → Least g b t.typeOf →
        Least g (buildAll rounds b) t'.typeOf) := by
  induction rounds generalizing b t with
  | nil => exact ⟨t, fun _ => rfl, hj, fun v => Covers.refl g _, fun _ hsaturated => hsaturated,
      fun _ hleast => hleast⟩
  | cons r rounds ih =>
    obtain ⟨hexisting, hrounds⟩ := hrounds
    have hgrown := build_extends hb r
    have hb' := build_built hb r
    obtain ⟨t₁, hwiden, hj₁, hup₁, hsaturated₁, hleast₁⟩ :=
      widen_ok hb'.wellFormed (justified_of_extends hgrown hj) hexisting
    obtain ⟨t₂, hreplay, hj₂, hup₂, hsaturated₂, hleast₂⟩ := ih hb' hj₁ hrounds
    refine ⟨t₂, fun settings => ?_, hj₂, fun v => (hup₁ v).trans (hup₂ v), ?_, ?_⟩
    · rw [replay, hwiden]
      exact hreplay _
    · rintro ⟨hthorough, hthoroughs⟩ hsaturated
      refine hsaturated₂ hthoroughs (hsaturated₁ fun v hv => ?_)
      -- what is not looked at was there before, with the same candidate
      by_cases hnew : v ∉ b.values ∨ (r.build b).operands v ≠ b.operands v
      · exact Or.inl (hthorough v hv hnew)
      · simp only [not_or, Classical.not_not] at hnew
        right
        rw [candidate_of_extends hgrown hnew.1 hnew.2]
        exact hsaturated v hnew.1
    · intro hsteady hleast
      refine hleast₂ hsteady (hleast₁ ?_ (least_of_extends hgrown hleast))
      exact steady_of_extends (buildAll_extends hb' rounds) hsteady

/-- **Types only move up as a body grows.** An analysis and the rounds after it give types without
an error and whatever the settings, and no type moves down. If each round looks at all that has
changed, the types end in a fixed point, and without casts and array reads it is the one that an
analysis of the last body finds. -/
theorem history_ascends (hb : b.Built) (hrounds : Each Existing b rounds) :
    ∃ t, (∀ settings, history g settings b rounds = .ok t) ∧
      (∀ earlier later, rounds = earlier ++ later → ∃ t',
        (∀ settings, history g settings b earlier = .ok t') ∧
        ∀ v, le g (t'.typeOf v) (t.typeOf v) = true) ∧
      (Each Thorough b rounds →
        Settled g (buildAll rounds b) t.typeOf ∧
          ((∀ i ∈ (buildAll rounds b).instructions,
            ((buildAll rounds b).instruction i).operation ≠ .arrayGet ∧
              ∀ type, ((buildAll rounds b).instruction i).operation ≠ .checkCast type) →
            ∀ settings, ∃ t', (infer g settings (buildAll rounds b)).result = .ok t' ∧ ∀ v,
              t'.typeOf v = t.typeOf v)) := by
  obtain ⟨t₀, -, hsound₀, hinfer⟩ := infer_ok (g := g) hb.wellFormed {}
  have hsaturated₀ := infer_saturated hb.wellFormed (hinfer {})
  -- a history is a replay on top of the first inference
  have hhistory : ∀ settings rounds,
      history g settings b rounds = replay g (fun n => settings (n + 1)) b t₀ rounds := by
    intro settings rounds
    rw [history, hinfer]
  obtain ⟨t, hreplay, hj, -, hsaturated, hleast⟩ := replay_ok hb hsound₀.justified hrounds
  refine ⟨t, fun settings => (hhistory settings rounds).trans (hreplay _),
    fun earlier later heq => ?_, fun hthorough => ?_⟩
  · subst heq
    obtain ⟨hearlier, hlater⟩ := each_append.1 hrounds
    obtain ⟨t₁, hreplay₁, hj₁, -, -, -⟩ := replay_ok hb hsound₀.justified hearlier
    obtain ⟨t₂, hreplay₂, -, hup, -, -⟩ := replay_ok (buildAll_built hb earlier) hj₁ hlater
    -- the replay of all rounds goes through the one of the earlier rounds
    have hlast : t₂ = t := by
      have h := replay_append (hreplay₁ fun _ => {}) later
      rw [hreplay, hreplay₂] at h
      exact (Except.ok.inj h).symm
    exact ⟨t₁, fun settings => (hhistory settings earlier).trans (hreplay₁ _),
      fun v => le_iff_covers.2 (hlast ▸ hup v)⟩
  · have hb' := buildAll_built hb rounds
    have hsaturated' := hsaturated hthorough hsaturated₀
    refine ⟨settled_of_justified hb'.wellFormed hj hsaturated', fun hno settings => ?_⟩
    -- without array reads and casts there is one least solution, which both runs give
    have hsteady := steady_of_operations hno
    obtain ⟨t', hinfer', -, -⟩ := infer_ok (g := g) hb'.wellFormed settings
    refine ⟨t', hinfer', fun v => ?_⟩
    have hleast₀ :=
      infer_least hb.wellFormed (steady_of_extends (buildAll_extends hb rounds) hsteady) (hinfer {})
    exact (infer_least hb'.wellFormed hsteady hinfer').eq (hleast hsteady hleast₀)
      (infer_saturated hb'.wellFormed hinfer') hsaturated' v

/-- A loop with a phi that only an `Integer` comes into. -/
def integerLoop : Body := .ofSteps ⟨0⟩
  [.block, .block, .edge ⟨0⟩ ⟨1⟩, .edge ⟨1⟩ ⟨1⟩,
   .instruction ⟨0⟩ (.newInstance ⟨8⟩) [] (some (.field (.object ⟨8⟩))),
   .phi ⟨1⟩ (.field (.object ⟨7⟩)), .operand ⟨1⟩ ⟨0⟩]

/-- Makes a `Long` in the loop, which then comes into the phi too. -/
def longRound : Round where
  steps := [.instruction ⟨1⟩ (.newInstance ⟨9⟩) [] (some (.field (.object ⟨9⟩))), .operand ⟨1⟩ ⟨2⟩]
  values := [⟨2⟩, ⟨1⟩]

/-- The phi has the join of both in the end, as an analysis of the whole loop finds. -/
theorem history_ascends_integerLoop :
    ∃ t₀ t t', history .platform (fun _ => {}) integerLoop [] = .ok t₀ ∧
      history .platform (fun _ => {}) integerLoop [longRound] = .ok t ∧
      (infer .platform {} (longRound.build integerLoop)).result = .ok t' ∧
      (∀ v, le .platform (t₀.typeOf v) (t.typeOf v) = true) ∧ (∀ v, t'.typeOf v = t.typeOf v) ∧
      t.typeOf ⟨1⟩ = joinAll .platform [t.typeOf ⟨0⟩, t.typeOf ⟨2⟩] := by
  have hb : integerLoop.Built := Body.built_ofSteps _ _
  have hexisting : Each Existing integerLoop [longRound] := by
    refine ⟨?_, trivial⟩
    unfold Existing
    decide +kernel
  have hthorough : Each Thorough integerLoop [longRound] := by
    refine ⟨fun v hv => ?_, trivial⟩
    revert v
    simp only [← Table.mem_indices (t := (longRound.build integerLoop).values)]
    decide +kernel
  obtain ⟨t, ht, hprefix, hthoroughly⟩ := history_ascends (g := .platform) hb hexisting
  obtain ⟨t₀, ht₀, hup⟩ := hprefix [] _ rfl
  obtain ⟨hsettled, hscratch⟩ := hthoroughly hthorough
  have hoperations : ∀ i ∈ (buildAll [longRound] integerLoop).instructions.indices,
    ((buildAll [longRound] integerLoop).instruction i).operation = .newInstance ⟨8⟩ ∨
    ((buildAll [longRound] integerLoop).instruction i).operation = .newInstance ⟨9⟩ := by
    decide +kernel
  obtain ⟨t', ht', heq⟩ := hscratch (fun i hi => by
    rcases hoperations i (Table.mem_indices.2 hi) with h | h <;> simp [h]) {}
  refine ⟨t₀, t, t', ht₀ _, ht _, ht', hup, heq, ?_⟩
  have hoperands : (buildAll [longRound] integerLoop).operands ⟨1⟩ = [⟨0⟩, ⟨2⟩] := by decide +kernel
  have hphi := hsettled.phi ⟨1⟩ (by decide +kernel)
  rw [hoperands] at hphi
  exact hphi

end FlowTyping

end JvmLowering
