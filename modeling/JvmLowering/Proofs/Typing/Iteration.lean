import JvmLowering.Proofs.Typing.FixedPoint
import Mathlib.Logic.Equiv.Basic

/-!
# Types in any order

What a value should have is fixed, the join of some other values, or what is read from an array. The
types of a body without casts come from these rules by looking at one value after the other, in
whatever order. All rules but array reads follow the types upwards, and an array read does so unless
the array is `null` at first and something else later.

* `Rule`, `FlowTyping.rule`: the rules, and those of a body;
* `Iterated`: the types that some order leads to;
* `Solution`: those among them that no rule moves any more;
* `Solution.covered_of_exact`: where array reads end with what their arrays give, the types are the
  least of all orders.
-/

namespace JvmLowering

namespace FlowType

variable {g : Hierarchy} {s t : FlowType} {ts : List FlowType}

/-! ### Array reads -/

/-- How many array dimensions the type has. -/
def dims : FlowType → Nat
  | ref r _ => (FieldType.ref r).dims
  | _ => 0

theorem arrayGet_ne_null (t : FlowType) : t.arrayGet ≠ null := by
  unfold arrayGet
  split <;> simp

/-- Only what is read from nothing is at most `null`. -/
theorem eq_bottom_of_arrayGet (h : Covers g t.arrayGet null) : t = bottom := by
  unfold arrayGet at h
  split at h
  · rfl
  all_goals exact absurd h id

/-- Array reads follow the type of the array upwards, unless it is `null`. -/
theorem arrayGet_mono (hs : s ≠ null) (h : Covers g s t) : Covers g s.arrayGet t.arrayGet := by
  rcases s with _ | _ | _ | a | ⟨r, m⟩
  · trivial
  · rw [top_covers_iff.1 h]
    trivial
  · exact absurd rfl hs
  · rcases prim_covers_iff.1 h with rfl | rfl <;> trivial
  · rcases t with _ | _ | _ | b | ⟨r', n⟩
    · exact absurd h id
    · exact covers_top g _
    · exact absurd h id
    · exact absurd h id
    · obtain ⟨hle, -⟩ := h
      -- by what covers the array: a class, an array of numbers, an array of objects
      rcases r' with b | ⟨l, b | b⟩
      · exact covers_top g _
      · rcases r with a | ⟨k, a | a⟩
        · exact absurd hle id
        · obtain ⟨rfl, rfl⟩ := hle
          cases k with
          | zero => rfl
          | succ k => exact ⟨⟨rfl, rfl⟩, id⟩
        · exact absurd hle id
      · rcases r with a | ⟨k, a | a⟩
        · exact absurd hle id
        · obtain ⟨hlt, rfl⟩ := hle
          obtain ⟨k, rfl⟩ := Nat.exists_eq_add_one_of_ne_zero (Nat.ne_zero_of_lt hlt)
          cases l with
          | zero => exact ⟨rfl, id⟩
          | succ l => exact ⟨⟨Nat.lt_of_succ_lt_succ hlt, rfl⟩, id⟩
        -- as many dimensions and a smaller class, or more dimensions under `Object`
        · rcases hle with ⟨rfl, hab⟩ | ⟨hlt, rfl⟩
          · cases k with
            | zero => exact ⟨hab, id⟩
            | succ k => exact ⟨Or.inl ⟨rfl, hab⟩, id⟩
          · obtain ⟨k, rfl⟩ := Nat.exists_eq_add_one_of_ne_zero (Nat.ne_zero_of_lt hlt)
            cases l with
            | zero => exact ⟨rfl, id⟩
            | succ l => exact ⟨Or.inr ⟨Nat.lt_of_succ_lt_succ hlt, rfl⟩, id⟩

/-- Types with fewer array dimensions are higher. -/
theorem dims_le_of_ref {r : RefType ClassId} {nullable : Bool} (ht : t ≠ top)
    (h : Covers g (ref r nullable) t) :
    t.dims ≤ (FieldType.ref r).dims := by
  rcases t with _ | _ | _ | b | ⟨r', n⟩
  · exact absurd h id
  · exact absurd rfl ht
  · exact absurd h id
  · exact absurd h id
  · rcases r' with b | ⟨l, b | b⟩
    · exact Nat.zero_le _
    · rcases r with a | ⟨k, a | a⟩
      · exact absurd h.1 id
      · obtain ⟨⟨rfl, -⟩, -⟩ := h
        exact Nat.le_refl _
      · exact absurd h.1 id
    · rcases r with a | ⟨k, a | a⟩
      · exact absurd h.1 id
      · exact Nat.succ_le_succ (Nat.le_of_lt h.1.1)
      · rcases h.1 with ⟨rfl, -⟩ | ⟨hlt, -⟩
        · exact Nat.le_refl _
        · exact Nat.succ_le_succ (Nat.le_of_lt hlt)

/-- What is read from an array has one dimension less, and what covers it has no more. -/
theorem dims_lt_of_arrayGet (hs : s ≠ bottom) (ht : t ≠ top) (h : Covers g s.arrayGet t) :
    t.dims < s.dims := by
  unfold arrayGet at h
  split at h
  · exact absurd rfl hs
  · rw [(prim_covers_iff.1 h).resolve_left ht]
    exact Nat.succ_pos _
  · exact Nat.lt_succ_of_le (dims_le_of_ref ht h)
  · exact Nat.lt_succ_of_le (dims_le_of_ref ht h)
  · exact absurd (top_covers_iff.1 h) ht

theorem join_ne_null (hs : s ≠ null) (ht : t ≠ null) : join g s t ≠ null := by
  intro h
  have hs' : Covers g s null := h ▸ covers_join_left g s t
  have ht' : Covers g t null := h ▸ covers_join_right g s t
  rcases s with _ | _ | _ | a | ⟨r, m⟩
  · exact ht h
  · exact absurd hs' id
  · exact hs rfl
  · exact absurd hs' id
  · exact absurd hs' id

theorem joinAll_ne_null (h : ∀ t ∈ ts, t ≠ null) : joinAll g ts ≠ null :=
  List.foldlRecOn (motive := (· ≠ null)) ts (join g) FlowType.noConfusion fun _ hs t ht =>
    join_ne_null hs (h t ht)

end FlowType

/-! ### Rules -/

/-- What the type of a value goes by. -/
inductive Rule where
  | fixed (t : FlowType)
  | merge (values : List ValueId)
  /-- What is read from the array. -/
  | element (array : ValueId)
deriving DecidableEq

namespace Rule

variable {g : Hierarchy}

def eval (g : Hierarchy) (types : ValueId → FlowType) : Rule → FlowType
  | fixed t => t
  | merge values => .joinAll g (values.map types)
  | element array => (types array).arrayGet

/-- The rule for values with other numbers. -/
def map (f : ValueId → ValueId) : Rule → Rule
  | fixed t => fixed t
  | merge values => merge (values.map f)
  | element array => element (f array)

theorem eval_map (f : ValueId → ValueId) (types : ValueId → FlowType) (r : Rule) :
    (r.map f).eval g types = r.eval g (types ∘ f) := by
  cases r with
  | fixed t => rfl
  | merge values => exact congrArg (FlowType.joinAll g) List.map_map
  | element array => rfl

end Rule

open FlowType

/-- Types that come from nothing when one value after the other moves up by its rule. -/
inductive Iterated (g : Hierarchy) (rules : ValueId → Rule) : (ValueId → FlowType) → Prop where
  | start : Iterated g rules fun _ => .bottom
  | step {types : ValueId → FlowType} (v : ValueId) (h : Iterated g rules types) :
      Iterated g rules (Function.update types v ((types v).join g ((rules v).eval g types)))

/-- No rule moves a type any more. -/
def Saturated (g : Hierarchy) (rules : ValueId → Rule) (types : ValueId → FlowType) : Prop :=
  ∀ v, Covers g ((rules v).eval g types) (types v)

/-- Array reads have what their arrays give, and nothing that was there before the array moved
up. -/
def Exact (rules : ValueId → Rule) (types : ValueId → FlowType) : Prop :=
  ∀ v array, rules v = .element array → types v = (types array).arrayGet

/-- No `null` gets to the value through merges. -/
def NullFree (rules : ValueId → Rule) (array : ValueId) : Prop :=
  ∀ v, Relation.ReflTransGen (fun p u => ∃ values, rules p = .merge values ∧ u ∈ values) array v →
    rules v ≠ .fixed .null

/-- Where looking at one value after the other ends. -/
structure Solution (g : Hierarchy) (rules : ValueId → Rule) (types : ValueId → FlowType) :
    Prop where
  iterated : Iterated g rules types
  saturated : Saturated g rules types

variable {g : Hierarchy} {rules rules' : ValueId → Rule} {types types' : ValueId → FlowType}
  {u v : ValueId}

theorem Saturated.merge {values : List ValueId} (h : Saturated g rules types)
    (hv : rules v = .merge values) (hu : u ∈ values) :
    Covers g (types u) (types v) := by
  have hcovers := h v
  rw [hv, Rule.eval, joinAll_covers_iff] at hcovers
  exact hcovers _ (List.mem_map_of_mem hu)

theorem Saturated.element {array : ValueId} (h : Saturated g rules types)
    (hv : rules v = .element array) :
    Covers g (types array).arrayGet (types v) := by
  have hcovers := h v
  rwa [hv] at hcovers

/-! ### One value after the other -/

theorem Iterated.step_ascends (g : Hierarchy) (types : ValueId → FlowType) (v : ValueId)
    (t : FlowType) (w : ValueId) :
    Covers g (types w) (Function.update types v ((types v).join g t) w) := by
  by_cases hw : w = v
  · subst hw
    rw [Function.update_self]
    exact covers_join_left g _ _
  · rw [Function.update_of_ne hw]
    exact Covers.refl g _

/-- What holds of nothing and of all joins with what the rule gives holds of the types. -/
theorem Iterated.induct {p : ValueId → FlowType → Prop} (h : Iterated g rules types)
    (hstart : ∀ v, p v .bottom)
    (hstep : ∀ (types : ValueId → FlowType) v, Iterated g rules types → (∀ v, p v (types v)) →
      p v ((types v).join g ((rules v).eval g types))) (v : ValueId) : p v (types v) := by
  induction h generalizing v with
  | start => exact hstart v
  | @step types w h ih =>
    by_cases hv : v = w
    · subst hv
      rw [Function.update_self]
      exact hstep types v h ih
    · rw [Function.update_of_ne hv]
      exact ih v

theorem Iterated.fixed {t : FlowType} (h : Iterated g rules types) (hv : rules v = .fixed t) :
    types v = .bottom ∨ types v = t := by
  refine h.induct (p := fun v type => rules v = .fixed t → type = .bottom ∨ type = t)
    (fun _ _ => Or.inl rfl) ?_ v hv
  intro types v _ ih hv
  rw [hv]
  rcases ih v hv with hbottom | heq
  · rw [hbottom]
    exact Or.inr rfl
  · rw [heq]
    exact Or.inr (covers_iff_join_eq.1 (Covers.refl g t))

theorem Iterated.dims_bounded (h : Iterated g rules types) : ∃ n, ∀ v, (types v).dims ≤ n := by
  induction h with
  | start => exact ⟨0, fun _ => Nat.le_refl _⟩
  | @step types w h ih =>
    obtain ⟨n, hn⟩ := ih
    refine ⟨max n ((types w).join g ((rules w).eval g types)).dims, fun v => ?_⟩
    by_cases hv : v = w
    · subst hv
      rw [Function.update_self]
      exact Nat.le_max_right _ _
    · rw [Function.update_of_ne hv]
      exact Nat.le_trans (hn v) (Nat.le_max_left _ _)

/-- Types of values with other numbers. -/
theorem Iterated.comp (e : ValueId ≃ ValueId) (hrules : ∀ v, rules' (e v) = (rules v).map e)
    (h : Iterated g rules' types) :
    Iterated g rules (types ∘ e) := by
  induction h with
  | start => exact .start
  | @step types w h ih =>
    have hstep := ih.step (e.symm w)
    have heval : (rules' w).eval g types = (rules (e.symm w)).eval g (types ∘ e) := by
      rw [← Rule.eval_map, ← hrules, e.apply_symm_apply]
    rw [← heval, Function.comp_apply, e.apply_symm_apply] at hstep
    have hupdate :=
      Function.update_comp_equiv types e w ((types w).join g ((rules' w).eval g types))
    rwa [hupdate]

/-! ### Array reads in any order -/

/-- In every order a value gets at most what some saturated types give it, if this is at most
`null`. -/
theorem Iterated.covered_of_null (h : Iterated g rules types) (hsat : Saturated g rules types')
    (hv : Covers g (types' v) .null) :
    Covers g (types v) (types' v) := by
  refine h.induct (p := fun v type => Covers g (types' v) .null → Covers g type (types' v))
    (fun _ _ => trivial) ?_ v hv
  intro types v _ ih hv
  refine join_covers_iff.2 ⟨ih v hv, ?_⟩
  have hrule := hsat v
  cases hr : rules v with
  | fixed t =>
    rw [hr] at hrule
    exact hrule
  | merge values =>
    refine joinAll_covers_iff.2 fun t ht => ?_
    obtain ⟨u, hu, rfl⟩ := List.mem_map.1 ht
    have hcovers := hsat.merge hr hu
    exact (ih u (hcovers.trans hv)).trans hcovers
  | element array =>
    -- nothing is at most `null` but what is read from nothing, and this stays nothing in every
    -- order
    rw [hr] at hrule
    have hbottom := eq_bottom_of_arrayGet (hrule.trans hv)
    have harray := ih array (by rw [hbottom]; trivial)
    rw [hbottom] at harray
    rw [Rule.eval, harray.antisymm (g := g) trivial]
    trivial

/-- A value that exceeds some saturated types does so because of an array read. -/
theorem Iterated.exists_element {bound : ValueId → FlowType} (h : Iterated g rules types)
    (hsat : Saturated g rules types') (hbound : ∀ v, Covers g (types v) (bound v)) (v : ValueId) :
    Covers g (types v) (types' v) ∨ ∃ y array, rules y = .element array ∧
      ¬ Covers g (bound y) (types' y) ∧ Covers g (types' y) (types' v) := by
  -- the induction is on the steps; each changes the type of one value
  induction h generalizing v with
  | start => exact Or.inl trivial
  | @step types w h ih =>
    have ih := ih fun u => (step_ascends g types w _ u).trans (hbound u)
    by_cases hvw : v = w
    · subst hvw
      have hv := hbound v
      rw [Function.update_self] at hv ⊢
      rcases ih v with hold | hread
      · rw [join_covers_iff]
        cases hr : rules v with
        | fixed t =>
          have hrule := hsat v
          rw [hr] at hrule
          exact Or.inl ⟨hold, hrule⟩
        | merge values =>
          -- if some value that is merged is not covered, an array read below it is to blame
          by_cases hall : ∀ u ∈ values, Covers g (types u) (types' u)
          · refine Or.inl ⟨hold, joinAll_covers_iff.2 fun t ht => ?_⟩
            obtain ⟨u, hu, rfl⟩ := List.mem_map.1 ht
            exact (hall u hu).trans (hsat.merge hr hu)
          · push Not at hall
            obtain ⟨u, hu, hnot⟩ := hall
            obtain ⟨y, array, hy, hexceeds, hcovers⟩ := (ih u).resolve_left hnot
            exact Or.inr ⟨y, array, hy, hexceeds, hcovers.trans (hsat.merge hr hu)⟩
        | element array =>
          -- the read itself is the one that is looked for, unless its bound is covered
          by_cases hexceeds : Covers g (bound v) (types' v)
          · have hnew := hv.trans hexceeds
            rw [join_covers_iff, hr] at hnew
            exact Or.inl hnew
          · exact Or.inr ⟨v, array, hr, hexceeds, Covers.refl g _⟩
      · exact Or.inr hread
    · rw [Function.update_of_ne hvw]
      exact ih v

/-- An array read that exceeds the types of another order has an array that does. -/
theorem Solution.array_of_exact {y array : ValueId} (h : Solution g rules types)
    (h' : Solution g rules types') (hexact : Exact rules types) (hy : rules y = .element array)
    (hexceeds : ¬ Covers g (types y) (types' y)) :
    ¬ Covers g (types array) (types' array) := by
  intro hcovers
  refine hexceeds ?_
  rw [hexact y array hy]
  refine Covers.trans ?_ (h'.saturated.element hy)
  by_cases hnull : types array = .null
  · -- a value that is `null` in the end is so in every order
    have hnull' : Covers g (types' array) (types array) :=
      h'.iterated.covered_of_null h.saturated (by rw [hnull]; trivial)
    rw [hcovers.antisymm hnull']
    exact Covers.refl g _
  · exact arrayGet_mono hnull hcovers

/-- **Exact types are the least of all orders.** What exceeds another order comes from an array
read, hence from an array that exceeds it too. The other order gives that array more dimensions, and
so on without end. -/
theorem Solution.covered_of_exact (h : Solution g rules types) (h' : Solution g rules types')
    (hexact : Exact rules types) (v : ValueId) : Covers g (types v) (types' v) := by
  obtain ⟨n, hn⟩ := h'.iterated.dims_bounded
  induction hd : n - (types' v).dims using Nat.strong_induction_on generalizing v with
  | _ d ih =>
    refine Classical.byContradiction fun hexceeds => ?_
    obtain ⟨y, array, hy, hread, hcovers⟩ :=
      (h.iterated.exists_element h'.saturated (fun v => Covers.refl g _) v).resolve_left hexceeds
    have harray := h.array_of_exact h' hexact hy hread
    have htop : types' v ≠ .top := by
      intro htop
      rw [htop] at hexceeds
      exact hexceeds (covers_top g _)
    have hbottom : types' array ≠ .bottom := by
      intro hbottom
      exact harray (h.iterated.covered_of_null h'.saturated (by rw [hbottom]; trivial))
    have hdims := dims_lt_of_arrayGet hbottom htop ((h'.saturated.element hy).trans hcovers)
    have hbound := hn array
    exact harray (ih (n - (types' array).dims) (by omega) array rfl)

/-! ### Arrays that are never `null` -/

theorem Iterated.ne_null (h : Iterated g rules types) (hv : NullFree rules v) :
    types v ≠ .null := by
  refine h.induct (p := fun v type => NullFree rules v → type ≠ .null)
    (fun _ _ => FlowType.noConfusion) ?_ v hv
  intro types v _ ih hv
  refine join_ne_null (ih v hv) ?_
  cases hr : rules v with
  | fixed t =>
    rintro rfl
    exact hv v .refl hr
  | merge values =>
    refine joinAll_ne_null fun t ht => ?_
    obtain ⟨u, hu, rfl⟩ := List.mem_map.1 ht
    exact ih u fun w hw => hv w (.head ⟨values, hr, hu⟩ hw)
  | element array => exact arrayGet_ne_null _

theorem Solution.exact_of_nullFree (h : Solution g rules types)
    (hfree : ∀ v array, rules v = .element array → NullFree rules array) : Exact rules types := by
  intro v array hv
  refine Covers.antisymm (g := g) ?_ (h.saturated.element hv)
  have hiterated := h.iterated
  clear h
  induction hiterated with
  | start => trivial
  | @step types w h ih =>
    have hmono : Covers g (types array).arrayGet (Function.update types w _ array).arrayGet :=
      arrayGet_mono (h.ne_null (hfree v array hv))
        (Iterated.step_ascends g types w ((rules w).eval g types) array)
    refine Covers.trans ?_ hmono
    by_cases hvw : v = w
    · subst hvw
      rw [Function.update_self, hv]
      exact join_covers_iff.2 ⟨ih, Covers.refl g _⟩
    · rw [Function.update_of_ne hvw]
      exact ih

/-! ### Rules of a body -/

/-- No instruction is a cast. -/
def Body.CastFree (b : Body) : Prop :=
  ∀ i ∈ b.instructions, ∀ t, (b.instruction i).operation ≠ .checkCast t

theorem Body.castFree_iff {b : Body} : b.CastFree ↔ ∀ i ∈ b.instructions,
    (match (b.instruction i).operation with
      | .checkCast _ => false
      | _ => true) = true := by
  refine forall₂_congr fun i _ => ?_
  cases (b.instruction i).operation <;> simp

instance (b : Body) : Decidable b.CastFree := decidable_of_iff _ Body.castFree_iff.symm

namespace FlowTyping

open Propagation

variable {b : Body} {settings : Settings} {s t : State} {f : Flow} {e : Option Error} {i : InsnId}

/-- The rule for the output of an instruction that is no cast. -/
def outputRule (g : Hierarchy) (b : Body) (insn : Instruction) (v : ValueId) : Rule :=
  match insn.operation with
  | .arrayGet => insn.inputs.head?.elim (.fixed .bottom) .element
  | .load | .store => .merge insn.inputs.head?.toList
  | _ => .fixed (outputType g b (fun _ => .bottom) insn v)

/-- The rule for a value of a body without casts. -/
def rule (g : Hierarchy) (b : Body) (v : ValueId) : Rule :=
  match (b.value v).origin with
  | .phi _ operands => .merge operands
  | _ => (b.definition? v).elim (.fixed .bottom) fun insn => outputRule g b insn v

theorem outputType_eq_eval {insn : Instruction} (hcast : ∀ t, insn.operation ≠ .checkCast t)
    (types : ValueId → FlowType) (v : ValueId) :
    outputType g b types insn v = (outputRule g b insn v).eval g types := by
  have hinput : firstInput types insn = joinAll g (insn.inputs.head?.toList.map types) := by
    unfold firstInput
    cases insn.inputs.head? <;> rfl
  unfold outputRule
  split
  · rename_i hop
    rw [outputType, hop]
    unfold firstInput
    cases insn.inputs.head? <;> rfl
  · rename_i hop
    rw [outputType, hop]
    exact hinput
  · rename_i hop
    rw [outputType, hop]
    exact hinput
  · refine outputType_congr fun harg hown => ?_
    cases hop : insn.operation <;> simp_all [Operation.isArgument, Operation.hasOwnType]

theorem candidate_eq_eval (hcasts : b.CastFree) (types : ValueId → FlowType) (v : ValueId) :
    candidate g b types v = (rule g b v).eval g types := by
  have hmade : ∀ insn, b.definition? v = some insn →
      outputType g b types insn v = (outputRule g b insn v).eval g types := by
    intro insn hinsn
    refine outputType_eq_eval (fun t => ?_) types v
    obtain ⟨i, -, rfl⟩ := Option.map_eq_some_iff.1 hinsn
    by_cases hi : i ∈ b.instructions
    · exact hcasts i hi t
    · rw [Body.instruction_of_notMem hi]
      exact Operation.noConfusion
  unfold candidate rule
  cases (b.value v).origin with
  | phi k operands => rfl
  | instruction i =>
    cases hdef : b.definition? v with
    | none => rfl
    | some insn => exact hmade insn hdef
  | stack slot definition =>
    cases hdef : b.definition? v with
    | none => rfl
    | some insn => exact hmade insn hdef

theorem rule_of_notMem (hv : v ∉ b.values) : rule g b v = .fixed .bottom := by
  simp [rule, Body.definition?, Value.definition?, Body.value_of_notMem hv, default]

theorem rule_of_output (hb : b.WellFormed) (hout : (b.instruction i).output = some v) :
    rule g b v = outputRule g b (b.instruction i) v := by
  simp [rule, Body.definition?, Value.definition?, (hb.origin_of_output i v hout).2]

/-! ### From the worklist to iterated types -/

theorem run_iterated (hf : ∀ types v, f.candidate types v = (rules v).eval g types)
    (hs : Iterated g rules s.types.get) (hrun : run g f s = (t, e)) :
    Iterated g rules t.types.get := by
  refine (run_preserves (P := fun s => Iterated g rules s.types.get)
    (fun s t hs hstep => ?_) hs hrun).1
  obtain ⟨v, work, -, ⟨-, htypes, -⟩ | ⟨htypes, -⟩⟩ := step_continued hstep
  · rw [htypes]
    exact hs
  · have hupdate :
        t.types.get = Function.update s.types.get v ((s.types.get v).join g
        ((rules v).eval g s.types.get)) := by
      funext w
      rw [htypes, TypeMap.get_set, hf, Function.update_apply]
      simp only [eq_comm]
    rw [hupdate]
    exact hs.step v

/-- A value whose type is known at once can be given it. -/
theorem iterated_set {type : FlowType} (hs : Iterated g rules s.types.get)
    (hv : rules v = .fixed type) :
    Iterated g rules (s.types.set v type).get := by
  have hjoin : (s.types.get v).join g ((rules v).eval g s.types.get) = type := by
    rw [hv]
    rcases hs.fixed hv with hbottom | heq
    · rw [hbottom]
      rfl
    · rw [heq]
      exact covers_iff_join_eq.1 (Covers.refl g type)
  have hupdate : (s.types.set v type).get = Function.update s.types.get v type := by
    funext w
    rw [TypeMap.get_set, Function.update_apply]
    simp only [eq_comm]
  rw [hupdate, ← hjoin]
  exact hs.step v

theorem seed_iterated (hb : b.WellFormed) : Iterated g (rule g b) (seed g b).types.get := by
  rw [seed_eq_walk]
  refine Body.walk_preserves (P := fun s : State => Iterated g (rule g b) s.types.get)
    (fun s i hs => ?_) (fun s k hs => hs) ?_
  · unfold seedInstruction
    split
    · exact hs
    · rename_i v hout
      -- to seed an output is one step of its rule, which looks at no other value
      have hrule := rule_of_output (g := g) hb hout
      split
      · rename_i index hop
        refine iterated_set hs ?_
        simp only [hrule, outputRule, outputType, hop]
      · split
        · exact hs
        · split
          · rename_i hown
            have htype : outputType g b (fun _ => .bottom) (b.instruction i) v = _ :=
              outputType_of_hasOwnType hown
            refine iterated_set hs ?_
            rw [hrule, ← htype, outputRule]
            split <;> simp_all [Operation.hasOwnType]
          · exact hs
  · have hempty : TypeMap.get {} = fun _ => FlowType.bottom := by
      funext v
      simp [TypeMap.get]
    exact hempty ▸ .start

/-- What an analysis finds is where some order ends. -/
theorem infer_solution {types : FlowTyping} (hb : b.WellFormed) (hcasts : b.CastFree)
    (h : (infer g settings b).result = .ok types) : Solution g (rule g b) types.typeOf := by
  refine ⟨?_, fun v => ?_⟩
  · unfold infer at h
    split at h
    · rename_i t hrun
      obtain rfl : (⟨t.types⟩ : FlowTyping) = types := Except.ok.inj h
      exact run_iterated (f := flow g settings b) (candidate_eq_eval hcasts) (seed_iterated hb) hrun
    · simp at h
  · rw [← candidate_eq_eval hcasts]
    by_cases hv : v ∈ b.values
    · exact infer_saturated hb h v hv
    · rw [candidate_of_notMem hv]
      trivial

end FlowTyping

end JvmLowering
