import JvmLowering.Proofs.Typing.Saturation

/-!
# Flow types are sound

The flow types of a body cover everything that its values can be when it is executed. An execution
runs from block to block and may leave a block at any point, as it does when an exception is raised.
It is given by what each instruction may leave in its output; nothing else about instructions is
used.

* `RuntimeType.Inhabits`: what a flow type says about a value;
* `Body.Step`: the executions;
* `FlowTyping.infer_sound`: in every execution, every value inhabits its flow type, and every
  receiver is an instance of the class in which its method is looked up.
-/

namespace JvmLowering

/-! ### Values at run time -/

/-- What can be seen of a value at run time. -/
inductive RuntimeType where
  | null
  | prim (b : BaseType)
  /-- A reference to an object or an array of exactly this type. -/
  | ref (r : RefType ClassId)
deriving DecidableEq, Repr

namespace RuntimeType

variable {g : Hierarchy} {k : RuntimeType}

/-- What a field of a type can hold. -/
def HasField (g : Hierarchy) : RuntimeType → FieldType ClassId → Prop
  | prim a, .base b => a = b
  | null, .ref _ => True
  | ref s, .ref r => g.isAssignable s r = true
  | _, _ => False

/-- What a value of a declared type can be. -/
def HasDeclared (g : Hierarchy) (k : RuntimeType) : DeclaredType ClassId → Prop
  | .null => k = null
  | .field t => k.HasField g t

/-- What a flow type says about a value. -/
def Inhabits (g : Hierarchy) (k : RuntimeType) : FlowType → Prop
  | .bottom => False
  | .top => True
  | .null => k = null
  | .prim b => k = prim b
  | .ref r nullable => k = null ∧ nullable = true ∨ ∃ s, k = ref s ∧ g.isAssignable s r = true

theorem HasField.inhabits {t : FieldType ClassId} {nullable : Bool} (h : k.HasField g t)
    (hn : nullable = true ∨ k ≠ null) :
    k.Inhabits g (.ofField nullable t) := by
  rcases t with b | r
  · rcases k with _ | a | s
    · exact absurd h id
    · exact congrArg prim h
    · exact absurd h id
  · rcases k with _ | a | s
    · exact Or.inl ⟨rfl, hn.resolve_right fun hne => hne rfl⟩
    · exact absurd h id
    · exact Or.inr ⟨s, rfl, h⟩

theorem HasDeclared.inhabits {t : DeclaredType ClassId} {nullable : Bool} (h : k.HasDeclared g t)
    (hn : nullable = true ∨ k ≠ null) : k.Inhabits g (.ofDeclared nullable t) := by
  rcases t with _ | t
  · exact h
  · exact HasField.inhabits h hn

end RuntimeType

/-! ### Types that are known -/

namespace FlowType

variable {g : Hierarchy} {s t : FlowType}

/-- The class that a flow type mentions is there. -/
def Known (g : Hierarchy) : FlowType → Prop
  | ref r _ => g.Knows r
  | _ => True

theorem known_join (hw : g.WellFormed) (hs : s.Known g) (ht : t.Known g) :
    (join g s t).Known g := by
  rcases s with _ | _ | _ | a | ⟨r, m⟩ <;> rcases t with _ | _ | _ | b | ⟨r', n⟩ <;>
    first | exact hs | exact ht | trivial | skip
  · simp only [join]
    split <;> trivial
  · exact hw.knows_joinRef hs

theorem known_joinAll (hw : g.WellFormed) {ts : List FlowType} (hts : ∀ t ∈ ts, t.Known g) :
    (joinAll g ts).Known g :=
  List.foldlRecOn ts (join g) trivial fun _ hs t ht => known_join hw hs (hts t ht)

theorem known_checkCast {target : RefType ClassId} (hr : g.Knows target) (ht : t.Known g) :
    (t.checkCast g target).Known g := by
  rcases t with _ | _ | _ | b | ⟨r, n⟩ <;> first | trivial | exact hr | skip
  simp only [checkCast]
  split
  · exact ht
  · exact hr

theorem known_arrayGet (ht : t.Known g) : t.arrayGet.Known g := by
  rcases t with _ | _ | _ | b | ⟨c | ⟨_ | extra, b | c⟩, n⟩ <;> trivial

theorem known_ofField {t : FieldType ClassId} (nullable : Bool)
    (h : ∀ c ∈ t.class?, c ∈ g.classes) :
    (ofField nullable t).Known g := by
  cases t with
  | base b => trivial
  | ref r => exact h

theorem known_ofDeclared {t : DeclaredType ClassId} (nullable : Bool)
    (h : ∀ c ∈ t.class?, c ∈ g.classes) :
    (ofDeclared nullable t).Known g := by
  cases t with
  | null => trivial
  | field t => exact known_ofField nullable h

end FlowType

/-- The reference type that an operation names for its output. -/
def Operation.namedType? : Operation → Option (RefType ClassId)
  | checkCast t | newArray t => some t
  | newInstance c | moveException c => some (.object c)
  | _ => none

/-- What the values of a body are made of is there. -/
structure Body.MadeFor (b : Body) (g : Hierarchy) : Prop where
  method : b.method ∈ g.methods
  declared : ∀ v ∈ b.values, ∀ c ∈ (b.value v).type.class?, c ∈ g.classes
  named : ∀ i ∈ b.instructions, ∀ r ∈ (b.instruction i).operation.namedType?, g.Knows r

namespace Body.MadeFor

variable {g : Hierarchy} {b : Body} (hm : b.MadeFor g)

include hm

theorem knows_declared (v : ValueId) : ∀ c ∈ (b.value v).type.class?, c ∈ g.classes := by
  by_cases hv : v ∈ b.values
  · exact hm.declared v hv
  · rw [value_of_notMem hv]
    simp [default, DeclaredType.class?]

theorem knows_named (i : InsnId) : ∀ r ∈ (b.instruction i).operation.namedType?, g.Knows r := by
  by_cases hi : i ∈ b.instructions
  · exact hm.named i hi
  · rw [instruction_of_notMem hi]
    simp [default, Operation.namedType?]

theorem known_argumentType (hw : g.WellFormed) (index : Nat) (v : ValueId) :
    (b.argumentType g index v).Known g := by
  have hmethod := hw.methods_known b.method hm.method
  have hdeclared := FlowType.known_ofDeclared (g := g) true (hm.knows_declared v)
  have hparameter : ∀ (position : Nat) t, (g.method b.method).type.parameters[position]? = some t →
      (FlowType.ofField true t).Known g := fun position t ht =>
    FlowType.known_ofField true (hmethod.parameters t (List.mem_of_getElem? ht))
  unfold argumentType
  simp only
  split
  · split
    · exact hparameter _ _ ‹_›
    · exact hdeclared
  · split
    · exact Hierarchy.knows_object.2 hmethod.owner
    · split
      · exact hparameter _ _ ‹_›
      · exact hdeclared

theorem known_ownType (i : InsnId) (v : ValueId) :
    ((b.instruction i).operation.ownType (b.value v).type).Known g := by
  have hnamed := hm.knows_named i
  unfold Operation.ownType
  split <;> rename_i hop
  · trivial
  · rw [hop] at hnamed
    exact hnamed _ rfl
  · rw [hop] at hnamed
    exact hnamed _ rfl
  · rw [hop] at hnamed
    exact hnamed _ rfl
  · exact FlowType.known_ofDeclared false (hm.knows_declared v)
  · exact FlowType.known_ofDeclared false (hm.knows_declared v)
  · exact FlowType.known_ofDeclared true (hm.knows_declared v)

end Body.MadeFor

namespace FlowTyping

open FlowType Propagation

variable {g : Hierarchy} {b : Body} {settings : Settings} {types : FlowTyping} {s t : State}
  {v w : ValueId} {i : InsnId}

theorem known_firstInput {get : ValueId → FlowType} (h : ∀ v, (get v).Known g)
    (insn : Instruction) :
    (firstInput get insn).Known g := by
  unfold firstInput
  cases insn.inputs.head? with
  | none => trivial
  | some v => exact h v

theorem known_outputType (hw : g.WellFormed) (hm : b.MadeFor g) {get : ValueId → FlowType}
    (h : ∀ v, (get v).Known g) :
    (outputType g b get (b.instruction i) v).Known g := by
  unfold outputType
  split <;> rename_i hop
  · exact hm.known_argumentType hw _ v
  · refine known_checkCast (hm.knows_named i _ ?_) (known_firstInput h _)
    rw [hop]
    rfl
  · exact known_arrayGet (known_firstInput h _)
  · exact known_firstInput h _
  · exact known_firstInput h _
  · exact hm.known_ownType i v

theorem known_candidate (hw : g.WellFormed) (hm : b.MadeFor g) {get : ValueId → FlowType}
    (h : ∀ v, (get v).Known g) :
    (candidate g b get v).Known g := by
  unfold candidate
  split
  · exact known_joinAll hw fun t ht => by
      obtain ⟨u, -, rfl⟩ := List.mem_map.1 ht
      exact h u
  · split
    · rename_i hdef
      obtain ⟨i, -, rfl⟩ := Option.map_eq_some_iff.1 hdef
      exact known_outputType hw hm h
    · trivial

theorem known_set (h : ∀ v, (s.types.get v).Known g) {t : FlowType} (ht : t.Known g) (w : ValueId) :
    ((s.types.set v t).get w).Known g := by
  rw [TypeMap.get_set]
  split
  · exact ht
  · exact h w

theorem known_seed (hw : g.WellFormed) (hm : b.MadeFor g) (v : ValueId) :
    ((seed g b).types.get v).Known g := by
  rw [seed_eq_walk]
  refine Body.walk_preserves (P := fun s : State => ∀ v, (s.types.get v).Known g) (fun s i hs => ?_)
    (fun s k hs => ?_) (fun v => ?_) v
  · unfold seedInstruction
    split
    · exact hs
    · split
      · exact known_set hs (hm.known_argumentType hw _ _)
      · split
        · exact hs
        · split
          · exact known_set hs (hm.known_ownType i _)
          · exact hs
  · exact hs
  · simp [TypeMap.get, Known]

/-- The classes of all types that are found are there. -/
theorem infer_known (hw : g.WellFormed) (hm : b.MadeFor g)
    (h : (infer g settings b).result = .ok types) (v : ValueId) :
    (types.typeOf v).Known g := by
  unfold infer at h
  split at h
  · rename_i t hrun
    simp only [Except.ok.injEq] at h
    subst h
    refine (run_preserves (P := fun s => ∀ v, (s.types.get v).Known g) ?_
      (known_seed hw hm) hrun).1 v
    intro s t hs hst
    obtain ⟨u, work, -, ⟨-, htypes, -⟩ | ⟨htypes, -⟩⟩ := step_continued hst
    · rw [htypes]
      exact hs
    · rw [htypes]
      exact known_set hs (known_join hw (hs u) (known_candidate hw hm hs))
  · simp at h

end FlowTyping

/-! ### Executions -/

namespace Body

variable {V : Type}

/-- How far an execution has come: the block that it is in, how many instructions of it have been
executed, and the values that have been assigned. -/
structure Point (V : Type) where
  block : BlockId
  position : Nat
  env : ValueId → Option V

/-- Nothing has been executed yet. -/
def Point.start : Point V := ⟨entry, 0, fun _ => none⟩

/-- What can be passed as an argument. The receiver is an instance of the class of the method, and a
parameter is of its type. An argument beyond the parameters is of its declared type. -/
def Accepts (g : Hierarchy) (b : Body) (index : Nat) (v : ValueId) (k : RuntimeType) : Prop :=
  let m := g.method b.method
  let isParameter (position : Nat) : Prop :=
    match m.type.parameters[position]? with
    | some t => k.HasField g t
    | none => k.HasDeclared g (b.value v).type
  if m.isStatic then isParameter index
  else
    match index with
    | 0 => ∃ s, k = .ref s ∧ g.isAssignable s (.object m.owner) = true
    | position + 1 => isParameter position

/-- What an instruction can leave in its output. A cast passes its input on, and so do loads and
stores; an array read finds something that the array can hold. -/
def Produces (g : Hierarchy) (b : Body) (type : V → RuntimeType) (env : ValueId → Option V)
    (insn : Instruction) (v : ValueId) (x : V) : Prop :=
  match insn.operation with
  | .argument index => b.Accepts g index v (type x)
  | .constant .null => type x = .null
  | .newInstance c | .moveException c => ∃ s, type x = .ref s ∧ g.isAssignable s (.object c) = true
  | .newArray t => ∃ s, type x = .ref s ∧ g.isAssignable s t = true
  | .constant (.string _) | .constant (.cls _) =>
    type x ≠ .null ∧ (type x).HasDeclared g (b.value v).type
  | .checkCast t =>
    ∃ input ∈ insn.inputs.head?, env input = some x ∧
      (type x = .null ∨ ∃ s, type x = .ref s ∧ g.isAssignable s t = true)
  | .arrayGet =>
    ∃ input ∈ insn.inputs.head?, ∃ y extra e, env input = some y ∧ type y = .ref (.array extra e) ∧
      (type x).HasField g (.ofElement extra e)
  | .load | .store => ∃ input ∈ insn.inputs.head?, env input = some x
  | _ => (type x).HasDeclared g (b.value v).type

/-- One step of an execution. A block can be left at any point, along any of its edges. -/
inductive Step (g : Hierarchy) (b : Body) (type : V → RuntimeType) : Point V → Point V → Prop
  | execute {k : BlockId} {n : Nat} {env : ValueId → Option V} {i : InsnId}
      (next : (b.block k).instructions[n]? = some i)
      (output : (b.instruction i).output = none) : Step g b type ⟨k, n, env⟩ ⟨k, n + 1, env⟩
  | assign {k : BlockId} {n : Nat} {env : ValueId → Option V} {i : InsnId} {v : ValueId} {x : V}
      (next : (b.block k).instructions[n]? = some i) (output : (b.instruction i).output = some v)
      (produced : b.Produces g type env (b.instruction i) v x) :
      Step g b type ⟨k, n, env⟩ ⟨k, n + 1, Function.update env v (some x)⟩
  | jump {k l : BlockId} {n j : Nat} {env : ValueId → Option V}
      (edge : (b.block l).predecessors[j]? = some k) :
      Step g b type ⟨k, n, env⟩ ⟨l, 0, b.enter env l j⟩

/-- What executions can come to. -/
def Reachable (g : Hierarchy) (b : Body) (type : V → RuntimeType) (p : Point V) : Prop :=
  Relation.ReflTransGen (b.Step g type) .start p

theorem Reachable.step {g : Hierarchy} {b : Body} {type : V → RuntimeType} {p q : Point V}
    (h : b.Reachable g type p) (hstep : b.Step g type p q) : b.Reachable g type q := h.tail hstep

end Body

/-! ### Soundness of the rules -/

/-- Arrays are covariant: what they hold is assignable where they are. -/
theorem Hierarchy.isAssignable_element {g : Hierarchy} {m n : Nat} {a b : Element ClassId}
    (h : g.isAssignable (.array m a) (.array n b) = true) :
    FieldType.ofElement m a = .ofElement n b ∨
      ∃ r s, FieldType.ofElement m a = .ref r ∧ FieldType.ofElement n b = .ref s ∧
        g.isAssignable r s = true := by
  -- an array with fewer dimensions of a class above all arrays holds arrays
  have hfewer : ∀ c, n < m → g.isAboveArrays c = true → b = .cls c → ∃ r s,
      FieldType.ofElement m a = .ref r ∧ FieldType.ofElement n b = .ref s ∧
      g.isAssignable r s = true := by
    rintro c hnm hc rfl
    obtain ⟨m, rfl⟩ := Nat.exists_eq_succ_of_ne_zero (Nat.ne_zero_of_lt hnm)
    rcases n with _ | n
    · exact ⟨.array m a, .object c, rfl, rfl, hc⟩
    · refine ⟨.array m a, .array n (.cls c), rfl, rfl, ?_⟩
      have hlt : n < m := Nat.lt_of_succ_lt_succ hnm
      cases a with
      | base a => simp [isAssignable, hlt, hc]
      | cls a => simp [isAssignable, hlt, hc, Nat.ne_of_gt hlt]
  rcases a with a | a <;> rcases b with b | b
  · simp only [isAssignable, Bool.and_eq_true, decide_eq_true_eq] at h
    exact Or.inl (by rw [h.1, h.2])
  · simp only [isAssignable, Bool.and_eq_true, decide_eq_true_eq] at h
    exact Or.inr (hfewer b h.1 h.2 rfl)
  · simp [isAssignable] at h
  · simp only [isAssignable] at h
    split at h
    · rename_i hmn
      subst hmn
      refine Or.inr ?_
      rcases m with _ | m
      · exact ⟨.object a, .object b, rfl, rfl, h⟩
      · exact ⟨.array m (.cls a), .array m (.cls b), rfl, rfl, by simpa [isAssignable] using h⟩
    · simp only [Bool.and_eq_true, decide_eq_true_eq] at h
      exact Or.inr (hfewer b h.1 h.2 rfl)

namespace RuntimeType

variable {g : Hierarchy} {k : RuntimeType} {s t : FlowType}

theorem Inhabits.mono (hs : g.Standard) (hw : g.WellFormed) (hk : s.Known g)
    (hcov : FlowType.Covers g s t) (h : k.Inhabits g s) : k.Inhabits g t := by
  rcases t with _ | _ | _ | b | ⟨r', n⟩ <;> rcases s with _ | _ | _ | a | ⟨r, m⟩ <;>
    first | exact absurd h id | exact absurd hcov id | trivial | skip
  · exact h.trans (congrArg prim hcov)
  · exact Or.inl ⟨h, hcov⟩
  · obtain ⟨hle, hn⟩ := hcov
    rcases h with ⟨hnull, hm⟩ | ⟨s, hk', hs'⟩
    · exact Or.inl ⟨hnull, hn hm⟩
    · exact Or.inr ⟨s, hk', hs.isAssignable_trans hw hs' (hs.isAssignable_of_refLE hw hk hle)⟩

theorem Inhabits.checkCast {r : RefType ClassId} (h : k.Inhabits g t)
    (hcast : k = null ∨ ∃ s, k = ref s ∧ g.isAssignable s r = true) :
    k.Inhabits g (t.checkCast g r) := by
  have hnullable : k.Inhabits g (.ref r true) := hcast.imp_left fun hn => ⟨hn, rfl⟩
  rcases t with _ | _ | _ | b | ⟨r', n⟩
  · exact h
  · exact hnullable
  · exact hnullable
  · exact hnullable
  · simp only [FlowType.checkCast]
    split
    · exact h
    · rcases hcast with hn | hr
      · refine Or.inl ⟨hn, ?_⟩
        rcases h with ⟨-, hnull⟩ | ⟨s, hk, -⟩
        · exact hnull
        · exact absurd (hn.symm.trans hk) (by simp)
      · exact Or.inr hr

theorem Inhabits.arrayGet (hs : g.Standard) (hw : g.WellFormed) {extra : Nat} {e : Element ClassId}
    (h : (ref (.array extra e)).Inhabits g t) (hk : k.HasField g (.ofElement extra e)) :
    k.Inhabits g t.arrayGet := by
  rcases t with _ | _ | _ | b | ⟨c | ⟨n, b⟩, nullable⟩ <;>
    first | exact absurd h id | trivial | skip
  have hassign : g.isAssignable (.array extra e) (.array n b) = true := by
    rcases h with ⟨hn, -⟩ | ⟨s, hs, hr⟩
    · exact absurd hn (by simp)
    · rwa [ref.inj hs]
  have hfield : k.HasField g (.ofElement n b) := by
    rcases Hierarchy.isAssignable_element hassign with heq | ⟨r, r', hr, hr', hrr⟩
    · rwa [← heq]
    · rw [hr] at hk
      rw [hr']
      rcases k with _ | p | q
      · trivial
      · exact absurd hk id
      · exact hs.isAssignable_trans hw hk hrr
  have hget : (FlowType.ref (.array n b) nullable).arrayGet = .ofField true (.ofElement n b) := by
    rcases n with _ | n <;> rcases b with b | c <;> rfl
  rw [hget]
  exact hfield.inhabits (Or.inl rfl)

end RuntimeType

/-! ### Soundness of the analysis -/

namespace FlowTyping

open FlowType RuntimeType

variable {g : Hierarchy} {b : Body} {settings : Settings} {types : FlowTyping} {V : Type}
  {type : V → RuntimeType}

/-- Every value that has been assigned inhabits its flow type. -/
def Describes (g : Hierarchy) (type : V → RuntimeType) (types : FlowTyping)
    (env : ValueId → Option V) : Prop :=
  ∀ v x, env v = some x → (type x).Inhabits g (types.typeOf v)

theorem accepts_inhabits {index : Nat} {v : ValueId} {k : RuntimeType} (h : b.Accepts g index v k) :
    k.Inhabits g (b.argumentType g index v) := by
  -- a parameter is as it is declared, in the method or at its value
  have hparameter : ∀ position : Nat,
      (match (g.method b.method).type.parameters[position]? with
        | some t => k.HasField g t
        | none => k.HasDeclared g (b.value v).type) →
      k.Inhabits g
        (match (g.method b.method).type.parameters[position]? with
        | some t => .ofField true t
        | none => .ofDeclared true (b.value v).type) := by
    intro position hk
    split at hk
    · exact HasField.inhabits hk (Or.inl rfl)
    · exact HasDeclared.inhabits hk (Or.inl rfl)
  unfold Body.Accepts at h
  unfold Body.argumentType
  simp only at h ⊢
  split at h
  · rw [if_pos ‹_›]
    exact hparameter index h
  · rw [if_neg ‹_›]
    cases index with
    | zero => exact Or.inr h
    | succ position => exact hparameter position h

theorem firstInput_eq {get : ValueId → FlowType} {insn : Instruction} {input : ValueId}
    (h : input ∈ insn.inputs.head?) :
    firstInput get insn = get input := by
  rw [firstInput, Option.mem_def.1 h]
  rfl

/-- What an instruction leaves in its output inhabits what the analysis gives the output. -/
theorem produces_inhabits (hs : g.Standard) (hw : g.WellFormed) {env : ValueId → Option V}
    (henv : Describes g type types env) {insn : Instruction} {v : ValueId} {x : V}
    (h : b.Produces g type env insn v x) :
    (type x).Inhabits g (outputType g b types.typeOf insn v) := by
  -- what is read first is as its type says
  have hinput : ∀ input y, env input = some y → input ∈ insn.inputs.head? →
      (type y).Inhabits g (firstInput types.typeOf insn) := by
    intro input y hy hhead
    rw [firstInput_eq hhead]
    exact henv input y hy
  unfold Body.Produces at h
  unfold outputType
  generalize insn.operation = operation at h ⊢
  cases operation with
  | argument index => exact accepts_inhabits h
  | constant c =>
    cases c with
    | null => exact h
    | string text => exact HasDeclared.inhabits h.2 (Or.inr h.1)
    | cls t => exact HasDeclared.inhabits h.2 (Or.inr h.1)
    | number n => exact HasDeclared.inhabits h (Or.inl rfl)
  | newInstance c => exact Or.inr h
  | moveException c => exact Or.inr h
  | newArray t => exact Or.inr h
  | checkCast t =>
    obtain ⟨input, hhead, hx, hcast⟩ := h
    exact (hinput input x hx hhead).checkCast hcast
  | arrayGet =>
    obtain ⟨input, hhead, y, extra, e, hy, htype, hfield⟩ := h
    have harray := hinput input y hy hhead
    rw [htype] at harray
    exact harray.arrayGet hs hw hfield
  | load =>
    obtain ⟨input, hhead, hx⟩ := h
    exact hinput input x hx hhead
  | store =>
    obtain ⟨input, hhead, hx⟩ := h
    exact hinput input x hx hhead
  -- all others give what they declare
  | _ => exact HasDeclared.inhabits h (Or.inl rfl)

/-- Each step of an execution assigns only values that inhabit their flow types. -/
theorem describes_step (hs : g.Standard) (hw : g.WellFormed) (hb : b.WellFormed) (hm : b.MadeFor g)
    (h : (infer g settings b).result = .ok types) {p q : Body.Point V}
    (hp : Describes g type types p.env) (hstep : b.Step g type p q) :
    Describes g type types q.env := by
  have hknown := infer_known hw hm h
  have hsaturated := infer_saturated hb h
  cases hstep with
  | execute next output => exact hp
  | @assign k n env i v x next output produced =>
    intro w y (hy : Function.update env v (some x) w = some y)
    by_cases hwv : w = v
    · subst hwv
      rw [Function.update_self, Option.some.injEq] at hy
      subst hy
      -- what the instruction gives is as its candidate says, which the type covers
      have hout := produces_inhabits hs hw hp produced
      rw [← candidate_of_output hb output] at hout
      exact hout.mono hs hw (known_candidate hw hm hknown)
        (hsaturated w (hb.origin_of_output i w output).1)
    · rw [Function.update_of_ne hwv] at hy
      exact hp w y hy
  | @jump k l n j env edge =>
    intro w y hy
    simp only [Body.enter] at hy
    split at hy
    · rename_i hphi
      -- a phi takes an operand, and its type covers those of all its operands
      obtain ⟨operands, ho⟩ := (hb.mem_phis l w).1 hphi
      obtain ⟨u, hu, hy⟩ := Option.bind_eq_some_iff.1 hy
      have hmem : u ∈ operands := by
        have := List.mem_of_getElem? hu
        rwa [Body.operands, Value.operands, ho] at this
      have hcand : candidate g b types.typeOf w = .joinAll g (operands.map types.typeOf) := by
        rw [candidate, ho]
      have hcov : Covers g (types.typeOf u) (types.typeOf w) := by
        refine joinAll_covers_iff.1 (hcand ▸ hsaturated w ?_) _ (List.mem_map_of_mem hmem)
        by_contra hn
        rw [Body.value_of_notMem hn] at ho
        exact Origin.noConfusion ho
      exact (hp u y hy).mono hs hw (hknown u) hcov
    · exact hp w y hy

/-- Every execution is described by the flow types. -/
theorem describes_reachable (hs : g.Standard) (hw : g.WellFormed) (hb : b.WellFormed)
    (hm : b.MadeFor g) (h : (infer g settings b).result = .ok types) {p : Body.Point V}
    (hp : b.Reachable g type p) :
    Describes g type types p.env := by
  induction hp with
  | refl => exact fun v x hx => absurd hx (by simp [Body.Point.start])
  | tail _ hstep ih => exact describes_step hs hw hb hm h ih hstep

/-- A receiver that inhabits its flow type is an instance of the class in which its method is looked
up. -/
theorem receiverClass_sound (types : FlowTyping) {i : InsnId} {m : MethodId} {mode : InvokeMode}
    {receiver : ValueId} {rest : List ValueId} (hi : i ∈ b.instructions)
    (hop : (b.instruction i).operation = .invoke m mode) (hstatic : (g.method m).isStatic = false)
    (hinputs : (b.instruction i).inputs = receiver :: rest) :
    ∃ c, b.receiverClass g types.typeOf i = .ok (some c) ∧
      (c = (g.method m).owner ∨ g.isSubclass c (g.method m).owner = true) ∧
      ∀ s, (RuntimeType.ref s).Inhabits g (types.typeOf receiver) →
        g.isAssignable s (.object (g.method m).owner) = true →
        g.isAssignable s (.object c) = true := by
  unfold Body.receiverClass
  rw [if_neg (Classical.not_not.2 hi)]
  simp only [hop, hstatic, hinputs, Bool.false_eq_true, if_false]
  split
  · rename_i c nullable htype
    refine ⟨_, rfl, ?_, fun s hinh hown => ?_⟩
    · split
      · exact Or.inr ‹_›
      · exact Or.inl rfl
    · split
      · rw [htype] at hinh
        rcases hinh with ⟨hn, -⟩ | ⟨s', hs', hassign⟩
        · exact absurd hn (by simp)
        · rwa [RuntimeType.ref.inj hs']
      · exact hown
  · exact ⟨_, rfl, Or.inl rfl, fun s _ hown => hown⟩

/-- **Flow types are sound.** Wherever an execution has come to, every value that has been assigned
inhabits its flow type, and a receiver that is an instance of the owner of the method is an instance
of the class in which the method is looked up. -/
theorem infer_sound (hg : g.Grown) (hs : g.Standard) (hb : b.Built) (hm : b.MadeFor g)
    (h : (infer g settings b).result = .ok types) (p : Body.Point V) (hp : b.Reachable g type p) :
    (∀ v x, p.env v = some x → (type x).Inhabits g (types.typeOf v)) ∧
      ∀ i ∈ b.instructions, ∀ m mode receiver rest, (b.instruction i).operation = .invoke m mode →
        (g.method m).isStatic = false → (b.instruction i).inputs = receiver :: rest →
        ∃ c, b.receiverClass g types.typeOf i = .ok (some c) ∧
          (c = (g.method m).owner ∨ g.isSubclass c (g.method m).owner = true) ∧
          ∀ x s, p.env receiver = some x → type x = .ref s →
            g.isAssignable s (.object (g.method m).owner) = true →
            g.isAssignable s (.object c) = true := by
  have hdescribes : Describes g type types p.env :=
    describes_reachable hs hg.wellFormed hb.wellFormed hm h hp
  refine ⟨hdescribes, fun i hi m mode receiver rest hop hstatic hinputs => ?_⟩
  obtain ⟨c, hc, hbelow, hsound⟩ := receiverClass_sound types hi hop hstatic hinputs
  refine ⟨c, hc, hbelow, fun x s hx htype hown => hsound s ?_ hown⟩
  rw [← htype]
  exact hdescribes receiver x hx

/-- The platform with an instance method of `java/lang/Object`. -/
def callHierarchy : Hierarchy :=
  (Hierarchy.platform.addMethod ⟨.first, .init, ⟨[], none⟩, .ofList []⟩).2

/-- A loop that calls a method of an `Integer` first and of elements of an array of `Long`s from
then on. -/
def callLoop : Body := .ofSteps ⟨0⟩
  [.block, .block, .edge ⟨0⟩ ⟨1⟩, .edge ⟨1⟩ ⟨1⟩,
   .instruction ⟨0⟩ (.newInstance ⟨8⟩) [] (some (.field (.object ⟨8⟩))),
   .instruction ⟨0⟩ (.newArray (.array 0 (.cls ⟨9⟩))) []
   (some (.field (.ref (.array 0 (.cls ⟨9⟩))))),
   .instruction ⟨0⟩ .goto,
   .phi ⟨1⟩ (.field (.object ⟨7⟩)), .operand ⟨2⟩ ⟨0⟩,
   .instruction ⟨1⟩ (.invoke ⟨0⟩ .virtual) [⟨2⟩],
   .instruction ⟨1⟩ .arrayGet [⟨1⟩] (some (.field (.object ⟨7⟩))),
   .operand ⟨2⟩ ⟨3⟩,
   .instruction ⟨1⟩ .goto]

/-- The loop comes to its second round, where the receiver is a `Long`. -/
theorem callLoop_reachable : ∃ p : Body.Point RuntimeType, callLoop.Reachable callHierarchy id p ∧
    p.env ⟨2⟩ = some (.ref (.object ⟨9⟩)) := by
  have start : callLoop.Reachable callHierarchy id (.start : Body.Point RuntimeType) := .refl
  have first := start.step
    (.assign (i := ⟨0⟩) (v := ⟨0⟩) (x := .ref (.object ⟨8⟩)) (by decide +kernel) (by decide +kernel)
    ⟨_, rfl, by decide +kernel⟩)
  have array := first.step
    (.assign (i := ⟨1⟩) (v := ⟨1⟩) (x := .ref (.array 0 (.cls ⟨9⟩))) (by decide +kernel)
    (by decide +kernel) ⟨_, rfl, by decide +kernel⟩)
  have enter := (array.step (.execute (i := ⟨2⟩) (by decide +kernel) (by decide +kernel))).step
    (.jump (l := ⟨1⟩) (j := 0) (by decide +kernel))
  have element :=
    (enter.step (.execute (i := ⟨3⟩) (by decide +kernel) (by decide +kernel))).step
      (.assign (i := ⟨4⟩) (v := ⟨3⟩) (x := .ref (.object ⟨9⟩)) (by decide +kernel)
      (by decide +kernel) ⟨⟨1⟩, by decide +kernel, _, 0, .cls ⟨9⟩, by decide +kernel,
      rfl, by exact (by decide +kernel : callHierarchy.isAssignable (.object
      ⟨9⟩) (.object ⟨9⟩) = true)⟩)
  have again := (element.step (.execute (i := ⟨5⟩) (by decide +kernel) (by decide +kernel))).step
    (.jump (l := ⟨1⟩) (j := 1) (by decide +kernel))
  exact ⟨_, again, by decide +kernel⟩

/-- In the second round of the loop the receiver inhabits the type of the phi, and its method is
looked up in a class above it. -/
theorem infer_sound_callLoop :
    callHierarchy.Standard ∧ ∃ types, (infer callHierarchy {} callLoop).result = .ok types ∧
      (RuntimeType.ref (.object ⟨9⟩)).Inhabits callHierarchy (types.typeOf ⟨2⟩) ∧
      ∃ c, callLoop.receiverClass callHierarchy types.typeOf ⟨3⟩ = .ok (some c) ∧
        callHierarchy.isAssignable (.object ⟨9⟩) (.object c) = true := by
  have hg : callHierarchy.Grown := .addMethod Hierarchy.Grown.initial.addPlatform
    ⟨by decide +kernel, by decide +kernel, by decide +kernel⟩
  have hs : callHierarchy.Standard := by decide +kernel
  have hm : callLoop.MadeFor callHierarchy := by
    refine ⟨by decide +kernel, ?_, ?_⟩
    · exact fun v hv =>
        (by decide +kernel : ∀ v ∈ callLoop.values.indices, ∀ c ∈ (callLoop.value v).type.class?,
        c ∈ callHierarchy.classes) v (Table.mem_indices.2 hv)
    · exact fun i hi => (by decide +kernel : ∀ i ∈ callLoop.instructions.indices,
        ∀ r ∈ (callLoop.instruction i).operation.namedType?, callHierarchy.Knows r) i
        (Table.mem_indices.2 hi)
  have hinfer : ∃ types, (infer callHierarchy {} callLoop).result = .ok types ∧ true = true :=
    infer_of_runFor_any (n := 10) (q := fun _ => true) (by decide +kernel)
  obtain ⟨types, htypes, -⟩ := hinfer
  obtain ⟨p, hp, hlong⟩ := callLoop_reachable
  obtain ⟨hvalues, hreceivers⟩ := infer_sound hg hs (Body.built_ofSteps _ _) hm htypes p hp
  obtain ⟨c, hc, -, hassign⟩ :=
    hreceivers ⟨3⟩ (by decide +kernel) ⟨0⟩ .virtual ⟨2⟩ [] (by decide +kernel) (by decide +kernel)
      (by decide +kernel)
  exact ⟨hs, types, htypes, hvalues _ _ hlong, c, hc, hassign _ _ hlong rfl (by decide +kernel)⟩

end FlowTyping

end JvmLowering
