import JvmLowering.Proofs.Lowering.Preservation
import JvmLowering.Proofs.Lowering.Totality
import JvmLowering.Proofs.Typing.FixedPoint
import JvmLowering.Proofs.Typing.VerifierExactness
import Mathlib.Data.List.Infix

/-!
# When lowering fails

The analyses, the stack code and the frames never fail, so what remains is the phis. A phi needs an
operand for each predecessor, and moves need a predecessor that leads nowhere else. Whether an
operand has to be moved is asked of the stack code, where values that are stored are no longer
constants.

* `Body.PhisFit`: phis that can be replaced by moves;
* `Body.PhiDefect`: what an error says of phis that cannot;
* `PhiMoves.Prepared`: what holds of the stack code while they are replaced;
* `Body.lower_cases`: lowering fails for no other reason.
-/

namespace JvmLowering

/-! ### Phis that fit -/

namespace Body

variable {b : Body} {settings : Settings} {slot? : ValueId → Option Nat} {p v : ValueId}
  {k : BlockId} {e : Error}

/-- An operand has to be moved into a phi: it is a constant that is pushed where it is used, or it
is not in the local variable of the phi. -/
def NeedsMove (b : Body) (settings : Settings) (slot? : ValueId → Option Nat)
    (p v : ValueId) : Prop :=
  b.isConstant v = true ∧ settings.rematerialize = true ∨ ¬ ∃ n, slot? v = some n ∧ slot? p = some n

/-- No phi of a block needs a move on the edge from the predecessor at a position, or that leads
nowhere else. -/
def EdgeFits (b : Body) (settings : Settings) (slot? : ValueId → Option Nat) (k source : BlockId)
    (position : Nat) : Prop :=
  ∀ p ∈ (b.block k).phis, ∀ v ∈ (b.operands p)[position]?, b.NeedsMove settings slot? p v →
    (b.block source).successors.length ≤ 1

/-- The phis of a block have one operand for each predecessor, and no edge that they need moves on
is critical. -/
structure PhisFit (b : Body) (settings : Settings) (slot? : ValueId → Option Nat) (k : BlockId) :
    Prop where
  counted : ∀ p ∈ (b.block k).phis, (b.operands p).length = (b.block k).predecessors.length
  uncritical : ∀ (position : Nat) (source : BlockId),
    (b.block k).predecessors[position]? = some source →
    b.EdgeFits settings slot? k source position

instance : Decidable (b.NeedsMove settings slot? p v) :=
  decidable_of_iff (b.isConstant v = true ∧ settings.rematerialize = true ∨ slot? v = none ∨
      slot? v ≠ slot? p) <| by
    refine or_congr_right ?_
    cases hv : slot? v with
    | none => simp
    | some n => simp [eq_comm]

instance (source : BlockId) (position : Nat) :
    Decidable (b.EdgeFits settings slot? k source position) :=
  inferInstanceAs (Decidable (∀ p ∈ _, ∀ v ∈ (b.operands p)[position]?, _ → _))

theorem phisFit_iff : b.PhisFit settings slot? k ↔
    (∀ p ∈ (b.block k).phis, (b.operands p).length = (b.block k).predecessors.length) ∧
      ∀ x ∈ (b.block k).predecessors.zipIdx, b.EdgeFits settings slot? k x.1 x.2 := by
  refine ⟨fun h =>
    ⟨h.counted, fun x hx => h.uncritical x.2 x.1 (List.mem_zipIdx_iff_getElem?.1 hx)⟩,
    fun h => ⟨h.1, ?_⟩⟩
  exact fun position source hedge => h.2 (source, position) (List.mem_zipIdx_iff_getElem?.2 hedge)

instance : Decidable (b.PhisFit settings slot? k) := decidable_of_iff _ phisFit_iff.symm

/-- A block that is not there has no phis. -/
theorem phisFit_of_notMem (hk : k ∉ b.blocks) : b.PhisFit settings slot? k := by
  have hnil : (b.block k).phis = [] := by
    rw [block_of_notMem hk]
    rfl
  exact ⟨by simp [hnil], by simp [EdgeFits, hnil]⟩

/-- What an error says of a phi that does not fit. -/
inductive PhiDefect (b : Body) (settings : Settings) (slot? : ValueId → Option Nat) : Error → Prop
  | miscounted {k : BlockId} {p : ValueId} (phi : p ∈ (b.block k).phis)
      (count : (b.operands p).length ≠ (b.block k).predecessors.length) :
      PhiDefect b settings slot?
        (.missingPhiOperand p (b.block k).predecessors.length (b.operands p).length)
  | critical {k source : BlockId} {position : Nat} {p v : ValueId}
      (edge : (b.block k).predecessors[position]? = some source)
      (phi : p ∈ (b.block k).phis) (operand : (b.operands p)[position]? = some v)
      (move : b.NeedsMove settings slot? p v)
      (branches : 1 < (b.block source).successors.length) :
      PhiDefect b settings slot? (.criticalEdge source k)

theorem PhiDefect.not_phisFit (h : PhiDefect b settings slot? e) :
    ¬ ∀ k, PhisFit b settings slot? k := by
  intro hfit
  cases h with
  | @miscounted k p phi count => exact count ((hfit k).counted p phi)
  | @critical k source position p v edge phi operand move branches =>
    exact Nat.not_lt.2 ((hfit k).uncritical position source edge p phi v operand move) branches

theorem PhiDefect.isMisuse (h : PhiDefect b settings slot? e) : e.isMisuse = false := by
  cases h <;> rfl

end Body

/-! ### Constants in stack code -/

namespace PhiMoves

open Body Emitter StackCoding

variable {c : StackCoding} {b b' b'' : Body} {e : Emitter} {m : Lowering} {a : Locals} {i : InsnId}
  {k source : BlockId} {p v : ValueId} {ms : List PhiMove} {slot? : ValueId → Option Nat}
  {position : Nat} {stored : ValueId → Prop}

/-- Stack code in which operands of phis are constants only if they are pushed where they are
used. -/
structure Prepared (c : StackCoding) (b b' : Body) : Prop where
  retains : b.Retains b'
  closed : b'.Closed
  constant : ∀ p, ∀ v ∈ b.operands p,
    (b'.isConstant v = true ↔ b.isConstant v = true ∧ c.settings.rematerialize = true)

theorem isConstant_eq_false_of_isStored (h : b.IsStored v) : b.isConstant v = false := by
  obtain ⟨j, -, ho, hop⟩ := h
  simp [isConstant, Body.definition?, Value.definition?, ho, hop, Operation.isConstant]

theorem isConstant_eq_false_of_isPhi (h : (b.value v).isPhi = true) : b.isConstant v = false := by
  obtain ⟨k, ho⟩ := origin_of_isPhi h
  simp [isConstant, Body.definition?, Value.definition?, ho]

theorem isConstant_of_origin (ho : (b.value v).origin = .instruction i) :
    b.isConstant v = (b.instruction i).operation.isConstant := by
  simp [isConstant, Body.definition?, Value.definition?, ho]

/-- A value that comes from where it did is a constant if it was. -/
theorem isConstant_congr (hc : b.Closed) (hr : Retains b b')
    (ho : (b'.value v).origin = (b.value v).origin) :
    b'.isConstant v = b.isConstant v := by
  have hdefinition : (b'.value v).definition? = (b.value v).definition? := by
    rw [Value.definition?, Value.definition?, ho]
  unfold isConstant Body.definition?
  rw [hdefinition]
  cases hj : (b.value v).definition? with
  | none => rfl
  | some j => simp [hr.operation j (hc.definition v j hj)]

theorem prepared_of_halfway (hb : b.WellFormed)
    (h : Halfway c b (fun _ => True) b') : Prepared c b b' := by
  refine ⟨h.retains, h.closed, fun p v hv => ?_⟩
  cases ho : (b.value v).origin with
  | stack slot definition =>
    exact absurd ho (hb.not_stack v (hb.operands_mem p v hv) slot definition)
  | phi l operands =>
    have hphi : (b.value v).isPhi = true := by simp [Value.isPhi, ho]
    have hphi' : (b'.value v).isPhi = true := by simp [Value.isPhi, h.retains.phi v l operands ho]
    simp [isConstant_eq_false_of_isPhi hphi, isConstant_eq_false_of_isPhi hphi']
  | instruction i =>
    have hsame : (b'.value v).origin = .instruction i → b'.isConstant v = b.isConstant v :=
      fun ho' => isConstant_congr hb.closed h.retains (ho'.trans ho.symm)
    have hconstant := isConstant_of_origin ho
    by_cases hpushed : IsPushed c b i
    · rw [hsame (h.pushed v i ho hpushed)]
      exact ⟨fun hv => ⟨hv, hpushed.2⟩, And.left⟩
    · have hnot : ¬ (b.isConstant v = true ∧ c.settings.rematerialize = true) := by
        rw [hconstant]
        exact hpushed
      refine iff_of_false (fun hv' => ?_) hnot
      -- a constant that is not pushed has been stored, since a phi reads it, and nothing else
      -- becomes a constant
      by_cases hv'' : b.isConstant v = true
      · have hstored :=
          h.stored v i ho trivial (hconstant ▸ hv'') hpushed ⟨p, (hb.mem_phiReaders v p).2 hv⟩
        simp [isConstant_eq_false_of_isStored hstored] at hv'
      · rcases h.retains.made v i ho with ho' | hstored
        · exact hv'' (hsame ho' ▸ hv')
        · simp [isConstant_eq_false_of_isStored hstored] at hv'

/-- Phis may be stored. -/
theorem Prepared.changes (hb : b.WellFormed) (h : Prepared c b b')
    (hc : Changes i (fun v => (b.value v).isPhi = true) b' b'') :
    Prepared c b b'' := by
  refine ⟨h.retains.trans hc.retains, hc.closed h.closed, fun p v hv => ?_⟩
  rw [← h.constant p v hv]
  have hstack : (b'.value v).isStack = false :=
    h.retains.isStack (isStack_eq_false hb (hb.operands_mem p v hv))
  have horigin : (b''.value v).origin = (b'.value v).origin := by
    cases hphi : (b.value v).isPhi with
    | true =>
      obtain ⟨l, ho⟩ := origin_of_isPhi hphi
      have ho' := h.retains.phi v l _ ho
      exact (hc.retains.phi v l _ ho').trans ho'.symm
    | false =>
      refine hc.origin (by simp [hphi]) fun slot definition ho => ?_
      simp [Value.isStack, ho] at hstack
  rw [isConstant_congr h.closed hc.retains horigin]

/-- Nor does it matter where instructions stand and who reads. -/
theorem Prepared.rearrange (h : Prepared c b b') (hr : b'.Retains b'') (hc : b''.Closed)
    (horigin : ∀ v, (b''.value v).origin = (b'.value v).origin) : Prepared c b b'' := by
  refine ⟨h.retains.trans hr, hc, fun p v hv => ?_⟩
  rw [isConstant_congr h.closed hr (horigin v), h.constant p v hv]

theorem Prepared.detach (h : Prepared c b b') (p : ValueId) : Prepared c b (PhiMoves.detach b' p) :=
  List.foldlRecOn _ _ h fun _ h v _ => h.rearrange (retains_removePhiReader v p)
    (h.closed.removePhiReader v p)
    fun _ => value_modifyValue_congr _ _ _ Value.origin fun _ => rfl

/-! ### Moves on an edge -/

theorem pushAll_writes (c : StackCoding) (i : InsnId) (stored : ValueId → Prop)
    (line : Option UInt32) (hms : ∀ m ∈ ms, m.operand ∈ e.body.values) (hk : k ∈ e.body.blocks) :
    Writes i stored e (pushAll c k line e ms).2 ∧
      ∀ x ∈ (pushAll c k line e ms).1, x.1 ∈ ms ∧ x.2 ∈ (pushAll c k line e ms).2.body.values := by
  induction ms generalizing e with
  | nil => exact ⟨Writes.refl e, fun _ hx => absurd hx List.not_mem_nil⟩
  | cons m ms ih =>
    obtain ⟨hm, hms⟩ := List.forall_mem_cons.1 hms
    obtain ⟨hwrites, hentry⟩ := pushOperand_writes c i stored line hm hk
    have hr := hwrites.changes.retains
    obtain ⟨hrest, hpushed⟩ := ih (fun m hm => hr.mem_values _ (hms m hm)) ((hr.mem_blocks k).2 hk)
    refine ⟨hwrites.trans hrest, List.forall_mem_cons.2 ⟨⟨List.mem_cons_self, ?_⟩, fun x hx => ?_⟩⟩
    · exact hrest.changes.retains.mem_values _ hentry
    · exact ⟨List.mem_cons_of_mem m (hpushed x hx).1, (hpushed x hx).2⟩

theorem storeAll_writes (i : InsnId) (line : Option UInt32) {pushed : List (PhiMove × ValueId)}
    (hpushed : ∀ x ∈ pushed, x.2 ∈ e.body.values ∧ x.1.phi ∈ e.body.values ∧ stored x.1.phi)
    (hk : k ∈ e.body.blocks) :
    Writes i stored e (pushed.foldl (store k line) e) := by
  induction pushed generalizing e with
  | nil => exact Writes.refl e
  | cons x pushed ih =>
    obtain ⟨⟨hentry, hphi, hstored⟩, hpushed⟩ := List.forall_mem_cons.1 hpushed
    have hstore : Writes i stored e (store k line e x) := store_writes line hentry hphi hstored hk
    have hr := hstore.changes.retains
    refine hstore.trans (ih (fun y hy => ?_) ((hr.mem_blocks k).2 hk))
    obtain ⟨hentry', hphi', hstored'⟩ := hpushed y hy
    exact ⟨hr.mem_values _ hentry', hr.mem_values _ hphi', hstored'⟩

theorem mem_of_splitJump {is : List InsnId} {j : InsnId}
    (h : j ∈ (splitJump b is).1 ++ (splitJump b is).2.toList) : j ∈ is := by
  unfold splitJump at h
  split at h
  · rename_i i hi
    split at h
    · rcases List.mem_append.1 h with hj | hj
      · exact List.mem_of_mem_dropLast hj
      · rw [List.mem_singleton.1 hj]
        exact List.mem_of_getLast? hi
    · simpa using h
  · simpa using h

/-- Moves are added to a block by instructions that are made first and listed then. -/
theorem insert_changes (c : StackCoding) (stored : ValueId → Prop) (hc : m.body.Closed)
    (hk : k ∈ m.body.blocks)
    (hms : ∀ n ∈ ms, n.operand ∈ m.body.values ∧ n.phi ∈ m.body.values ∧ stored n.phi) :
    ∃ f is, Changes .first stored m.body f ∧ (∀ j ∈ is, j ∈ f.instructions) ∧
      (PhiMoves.insert c m k ms).body = f.setInstructions k is := by
  unfold PhiMoves.insert
  have hsplit := fun j hj => hc.instructions k j (mem_of_splitJump (b := m.body) hj)
  generalize splitJump m.body (m.body.block k).instructions = split at hsplit ⊢
  obtain ⟨before, jump⟩ := split
  obtain ⟨hbefore, hjump⟩ := List.forall_mem_append.1 hsplit
  simp only
  generalize (jump.bind fun i => (m.body.instruction i).line) = line
  -- the operands are pushed, and then the entries are stored to the phis
  obtain ⟨hwrites, hpushed⟩ :=
    pushAll_writes (e := { m with emitted := before }) c .first stored line
      (fun n hn => (hms n hn).1) hk
  generalize pushAll c k line { m with emitted := before } ms = r at hwrites hpushed ⊢
  obtain ⟨pushed, e₁⟩ := r
  have hr := hwrites.changes.retains
  have hstores : Writes .first stored e₁ (pushed.reverse.foldl (store k line) e₁) := by
    refine storeAll_writes .first line (fun x hx => ?_) ((hr.mem_blocks k).2 hk)
    obtain ⟨hx, hentry⟩ := hpushed x (List.mem_reverse.1 hx)
    obtain ⟨-, hphi, hstored⟩ := hms x.1 hx
    exact ⟨hentry, hr.mem_values _ hphi, hstored⟩
  have hall := hwrites.trans hstores
  refine ⟨_, _, hall.changes, fun j hj => ?_, rfl⟩
  rcases List.mem_append.1 hj with hj | hj
  · exact hall.emitted hbefore j hj
  · exact hall.changes.retains.mem_instructions j (hjump j hj)

/-- Moves can be added to any block. -/
theorem Prepared.insert (hb : b.WellFormed) (h : Prepared c b m.body) (hk : k ∈ b.blocks)
    (hms : ∀ m ∈ ms, m.operand ∈ b.values ∧ (b.value m.phi).isPhi = true) :
    Prepared c b (PhiMoves.insert c m k ms).body := by
  obtain ⟨f, is, hchanges, his, hbody⟩ :=
    insert_changes c (fun v => (b.value v).isPhi = true) h.closed
      ((h.retains.mem_blocks k).2 hk) fun n hn =>
        ⟨h.retains.mem_values _ (hms n hn).1,
          h.retains.mem_values _ (mem_values_of_isPhi (hms n hn).2), (hms n hn).2⟩
  have hwritten := h.changes hb hchanges
  have hk' := (hwritten.retains.mem_blocks k).2 hk
  rw [hbody]
  exact hwritten.rearrange (retains_setInstructions hk' _) (hwritten.closed.setInstructions hk' his)
    fun _ => rfl

theorem Prepared.operands (h : Prepared c b b') (hp : (b.value p).isPhi = true) :
    b'.operands p = b.operands p := by
  obtain ⟨l, ho⟩ := origin_of_isPhi hp
  rw [Body.operands, Value.operands, h.retains.phi p l _ ho]

theorem Prepared.isNeeded_iff (h : Prepared c b b') (hv : v ∈ b.operands p) :
    isNeeded b' a ⟨p, v⟩ = true ↔ b.NeedsMove c.settings a.slot? p v := by
  unfold isNeeded NeedsMove
  rw [Bool.or_eq_true, Bool.or_eq_true, h.constant p v hv, or_assoc]
  refine or_congr_right ?_
  cases hp : a.slot? p with
  | none => simp
  | some n =>
    simp only [reduceCtorEq, decide_false, Bool.false_eq_true, false_or, decide_eq_true_eq,
      Option.some.injEq]
    refine not_congr ⟨fun hv => ⟨n, hv.symm, rfl⟩, ?_⟩
    rintro ⟨n', hv, rfl⟩
    exact hv.symm

/-- The moves of an edge are those that are needed there. -/
theorem Prepared.mem_onEdge_iff (hb : b.WellFormed) (h : Prepared c b b') :
    ⟨p, v⟩ ∈ onEdge b' a (b.block k).phis position ↔
      p ∈ (b.block k).phis ∧ (b.operands p)[position]? = some v ∧
        b.NeedsMove c.settings a.slot? p v := by
  rw [mem_onEdge, and_assoc]
  refine and_congr_right fun hp => ?_
  rw [h.operands (hb.isPhi_of_mem_phis hp)]
  exact and_congr_right fun hv => h.isNeeded_iff (List.mem_of_getElem? hv)

/-- The moves of an edge can be added, unless there are some and the edge is critical. -/
theorem insertOnEdge_cases (hb : b.WellFormed) (h : Prepared c b m.body)
    (hedge : (b.block k).predecessors[position]? = some source) :
    (∃ m', insertOnEdge c a k (b.block k).phis m (source, position) = (m', none) ∧
      Prepared c b m'.body ∧
      b.EdgeFits c.settings a.slot? k source position) ∨
    ∃ m' e, insertOnEdge c a k (b.block k).phis m (source, position) = (m', some e) ∧
      PhiDefect b c.settings a.slot? e := by
  have hmoves : ∀ p v, ⟨p, v⟩ ∈ onEdge m.body a (b.block k).phis position ↔ _ :=
    fun _ _ => h.mem_onEdge_iff hb
  have hmoving := moves c a k (b.block k).phis m source position
  generalize insertOnEdge c a k (b.block k).phis m (source, position) = outcome at hmoving ⊢
  cases hmoving with
  | unmoved unneeded =>
    rw [unneeded] at hmoves
    refine Or.inl ⟨m, rfl, h, fun p hp v hv hneeds => ?_⟩
    exact absurd ((hmoves p v).2 ⟨hp, hv, hneeds⟩) List.not_mem_nil
  | critical needed branches =>
    obtain ⟨n, hn⟩ := List.exists_mem_of_ne_nil _ needed
    obtain ⟨hp, hv, hneeds⟩ := (hmoves n.phi n.operand).1 hn
    rw [h.retains.successors] at branches
    exact Or.inr ⟨_, _, rfl, .critical hedge hp hv hneeds branches⟩
  | moved needed single =>
    rw [h.retains.successors] at single
    refine Or.inl ⟨_, rfl, h.insert hb ?_ fun n hn => ?_, fun _ _ _ _ _ => single⟩
    · exact hb.closed.predecessors k source (List.mem_of_getElem? hedge)
    · obtain ⟨hp, hv, -⟩ := (hmoves n.phi n.operand).1 hn
      exact ⟨hb.operands_mem n.phi _ (List.mem_of_getElem? hv), hb.isPhi_of_mem_phis hp⟩

/-- The same for all edges into a block, one after the other. -/
theorem insertOnEdges_cases (hb : b.WellFormed) (h : Prepared c b m.body)
    (a : Locals) (k : BlockId) :
    (∃ m', attemptAll (insertOnEdge c a k (b.block k).phis) m (b.block k).predecessors.zipIdx =
      (m', none) ∧ Prepared c b m'.body ∧
      ∀ x ∈ (b.block k).predecessors.zipIdx, b.EdgeFits c.settings a.slot? k x.1 x.2) ∨
    ∃ m' e, attemptAll (insertOnEdge c a k (b.block k).phis) m (b.block k).predecessors.zipIdx =
      (m', some e) ∧
      PhiDefect b c.settings a.slot? e := by
  have hedges : ∀ x ∈ (b.block k).predecessors.zipIdx, (b.block k).predecessors[x.2]? = some x.1 :=
    fun x hx => List.mem_zipIdx_iff_getElem?.1 hx
  refine (attemptAll_cases (P := fun edges (m : Lowering) =>
    (∀ x ∈ edges, (b.block k).predecessors[x.2]? = some x.1) ∧ Prepared c b m.body)
      (fun x edges m hm => ?_) ⟨hedges, h⟩).imp_left
    fun ⟨m', hm', hend, hfits⟩ => ⟨m', hm', hend.2, hfits⟩
  obtain ⟨hx, hedges⟩ := List.forall_mem_cons.1 hm.1
  exact (insertOnEdge_cases hb hm.2 hx).imp_left fun ⟨m', hm', hprepared, hfits⟩ =>
    ⟨m', hm', ⟨hedges, hprepared⟩, hfits⟩

/-! ### All blocks -/

/-- Some blocks have their moves. Values are where they were, and what is live is there. -/
structure Advancing (c : StackCoding) (b : Body) (slot? : ValueId → Option Nat)
    (s : Lowering × Locals) : Prop where
  prepared : Prepared c b s.1.body
  slots : s.2.slot? = slot?
  live : ∀ k, ∀ v ∈ s.2.liveAt k, v ∈ b.values

theorem miscounted?_eq_none_iff : miscounted? b k = none ↔
    ∀ p ∈ (b.block k).phis, (b.operands p).length = (b.block k).predecessors.length := by
  simp [miscounted?]

/-- The phis of a block can be replaced by moves if they fit. -/
theorem resolveBlock_cases (hb : b.WellFormed) {s : Lowering × Locals} (h : Advancing c b slot? s)
    (k : BlockId) :
    (∃ s', resolveBlock c s k = (s', none) ∧ Advancing c b slot? s' ∧
      b.PhisFit c.settings slot? k) ∨
    ∃ s' e, resolveBlock c s k = (s', some e) ∧ PhiDefect b c.settings slot? e := by
  obtain ⟨m, a⟩ := s
  obtain ⟨hprepared, rfl, hlive⟩ := h
  simp only at hprepared hlive ⊢
  have hoperands : ∀ p ∈ (b.block k).phis, m.body.operands p = b.operands p :=
    fun p hp => hprepared.operands (hb.isPhi_of_mem_phis hp)
  -- what is counted is the same as before, since phis keep their operands until they are detached
  have hcounting : miscounted? m.body k = none →
      ∀ p ∈ (b.block k).phis, (b.operands p).length = (b.block k).predecessors.length := by
    intro hcounted p hp
    rw [← hoperands p hp, ← hprepared.retains.predecessors]
    exact miscounted?_eq_none_iff.1 hcounted p (hprepared.retains.phis k ▸ hp)
  have hedges := insertOnEdges_cases hb hprepared a k
  have hresolves := resolves c m a k
  generalize resolveBlock c (m, a) k = outcome at hresolves ⊢
  cases hresolves with
  -- by what resolving the block does
  | unphied hnil =>
    rw [hprepared.retains.phis] at hnil
    exact Or.inl ⟨_, rfl, ⟨hprepared, rfl, hlive⟩, by simp [hnil], by simp [EdgeFits, hnil]⟩
  | miscounted _ he =>
    unfold miscounted? at he
    obtain ⟨p, hfound, rfl⟩ := Option.map_eq_some_iff.1 he
    rw [hprepared.retains.phis] at hfound
    have hp := List.mem_of_find?_eq_some hfound
    have hcount := List.find?_some hfound
    rw [hprepared.retains.predecessors, hoperands p hp] at hcount ⊢
    exact Or.inr ⟨_, _, rfl, .miscounted hp (by simpa using hcount)⟩
  | refused _ hcounted hrun =>
    rw [hprepared.retains.phis, hprepared.retains.predecessors] at hrun
    rcases hedges with ⟨m', hm', -⟩ | ⟨m', e, hm', he⟩
    · simp [hm'] at hrun
    · obtain rfl := Option.some.inj (congrArg Prod.snd (hm'.symm.trans hrun))
      exact Or.inr ⟨_, _, rfl, he⟩
  | resolved _ hcounted hrun =>
    rw [hprepared.retains.phis, hprepared.retains.predecessors] at hrun
    rw [hprepared.retains.phis]
    rcases hedges with ⟨m', hm', hprepared', hfits⟩ | ⟨m', e, hm', -⟩
    · obtain rfl := congrArg Prod.fst (hm'.symm.trans hrun)
      refine Or.inl ⟨_, rfl, ⟨?_, ?_, fun l v hv => ?_⟩, phisFit_iff.2 ⟨hcounting hcounted, hfits⟩⟩
      · exact List.foldlRecOn _ _ hprepared' fun _ h p _ => h.detach p
      · exact funext fun v => slot?_foldl_addLive ..
      · rcases Locals.mem_liveAt_foldl_addLive.1 hv with ⟨-, hv⟩ | hv
        · exact hb.mem_values_of_phi hv
        · exact hlive l v hv
    · simp [hm'] at hrun

end PhiMoves

namespace Body

open StackCoding PhiMoves

variable {b b' : Body} {g : Hierarchy} {c : StackCoding} {settings : Settings} {a : Locals}

/-- Stack code fails to be written only for phis that do not fit. -/
theorem toStackCode_cases (hb : b.WellFormed) (c : StackCoding)
    (hlive : ∀ k, ∀ v ∈ a.liveAt k, v ∈ b.values) :
    (∃ s, b.toStackCode c a = (s, none) ∧ Advancing c b a.slot? s ∧ ∀ k,
      b.PhisFit c.settings a.slot? k) ∨
    ∃ s e, b.toStackCode c a = (s, some e) ∧ PhiDefect b c.settings a.slot? e := by
  obtain ⟨m, hm, hhalfway⟩ := insertLoadsAndStores_total hb c
  have hprepared := prepared_of_halfway hb hhalfway
  unfold toStackCode insertPhiMoves
  rw [hm]
  refine (attemptAll_cases (P := fun _ s => Advancing c b a.slot? s)
    (fun k _ s h => resolveBlock_cases hb h k) (s := (m, a)) ⟨hprepared, rfl, hlive⟩).imp_left
    fun ⟨s, hs, hend, hfits⟩ => ⟨s, hs, hend, fun k => ?_⟩
  by_cases hk : k ∈ m.body.blocks
  · exact hfits k (Table.mem_indices.2 hk)
  · exact phisFit_of_notMem (mt (hprepared.retains.mem_blocks k).2 hk)

/-! ### Frames -/

variable {t : VerifierTyping} {v : ValueId}

/-- Every value that was there has a type in a frame. -/
theorem localType_total (g : Hierarchy) (hr : b.Retains b')
    (ht : ∀ v ∈ b.values, VerifierTyping.isTracked b v = true → ∃ type, t.typeOf v = .ok type)
    (k : BlockId) (hv : v ∈ b.values) :
    ∃ type, EntryFrames.localType g b' t k v = .ok type := by
  unfold EntryFrames.localType
  rw [if_neg (Classical.not_not.2 (hr.mem_values v hv)), hr.type v hv]
  split
  · exact ⟨_, rfl⟩
  split
  · exact ⟨_, rfl⟩
  · rename_i hbase
    refine ht v hv ?_
    unfold VerifierTyping.isTracked
    rcases htype : (b.value v).type with _ | (base | r)
    · rfl
    · exact absurd htype (hbase base)
    · rfl

theorem mem_liveSlots {k : BlockId} {n : Nat} : (n, v) ∈ EntryFrames.liveSlots a k ↔
    v ∈ a.liveAt k ∧ a.slot? v = some n := by
  unfold EntryFrames.liveSlots
  simp only [List.mem_mergeSort, List.mem_filterMap, Option.map_eq_some_iff, Prod.mk.injEq]
  constructor
  · rintro ⟨w, hw, m, hm, rfl, rfl⟩
    exact ⟨hw, hm⟩
  · rintro ⟨hv, hn⟩
    exact ⟨v, hv, n, hn, rfl, rfl⟩

/-- Frames can be given if what is live was there. -/
theorem entryFrames_total (g : Hierarchy) (settings : Settings) (hr : b.Retains b')
    (hlive : ∀ k, ∀ v ∈ a.liveAt k, v ∈ b.values)
    (ht : ∀ v ∈ b.values, VerifierTyping.isTracked b v = true → ∃ type, t.typeOf v = .ok type) :
    ∃ frames, (b'.entryFrames g settings a t).result = .ok frames := by
  -- what is live is a value of the body, so a type for it is known
  have hplace : ∀ k, ∀ x ∈ EntryFrames.liveSlots a k, ∀ l, ∃ l',
      EntryFrames.placeLocal g b' t k l x = (l', none) := by
    intro k x hx l
    obtain ⟨type, htype⟩ := localType_total g hr ht k (hlive k x.2 (mem_liveSlots.1 hx).1)
    unfold EntryFrames.placeLocal
    simp only [htype]
    split
    · exact ⟨_, rfl⟩
    · exact ⟨_, rfl⟩
  -- then each frame can be computed, whatever has been reported before
  have hframe : ∀ k p, ∃ p', EntryFrames.addFrame g b' a t p k = (p', none) := by
    intro k p
    obtain ⟨l, hl, -⟩ := attemptAll_total (P := fun xs _ => ∀ x ∈ xs, x ∈ EntryFrames.liveSlots a k)
      (fun x xs l hxs => by
        obtain ⟨hx, hxs⟩ := List.forall_mem_cons.1 hxs
        exact (hplace k x hx l).imp fun _ h => ⟨h, hxs⟩)
      (s := (⟨{}, p.reports⟩ : EntryFrames.Layout)) fun _ hx => hx
    unfold EntryFrames.addFrame
    rw [hl]
    exact ⟨_, rfl⟩
  unfold entryFrames
  split
  · obtain ⟨p, hp, -⟩ :=
      attemptAll_total (P := fun _ _ => True)
        (fun k _ p _ => (hframe k p).imp fun _ h => ⟨h, trivial⟩) (l := b'.blocks.indices)
        (s := {}) trivial
    unfold EntryFrames.compute
    rw [hp]
    exact ⟨_, rfl⟩
  · exact ⟨_, rfl⟩

/-! ### The method as a whole -/

/-- A method is lowered, or it has a phi that does not fit. -/
theorem lower_cases (hb : b.WellFormed) (hargs : b.ReferenceArguments g) (settings : Settings)
    (hlive : ∀ k, ∀ v ∈ a.liveAt k, v ∈ b.values) :
    (∃ a' lowered, (b.lower g settings a).result = (a', .ok lowered) ∧ lowered.body.Closed ∧ ∀ k,
      b.PhisFit settings a.slot? k) ∨
    ∃ a' e, (b.lower g settings a).result = (a', .error ⟨b.method, e⟩) ∧
      PhiDefect b settings a.slot? e := by
  obtain ⟨types, htypes, -⟩ := FlowTyping.infer_ok (g := g) hb settings
  obtain ⟨verifier, hverifier, htyped⟩ := VerifierTyping.compute_ok hb hargs
  have ht : ∀ v ∈ b.values, VerifierTyping.isTracked b v = true → ∃ type,
      verifier.typeOf v = .ok type := by
    intro v hv htracked
    have hv' := htyped v
    rwa [if_pos ⟨hv, htracked⟩] at hv'
  rcases toStackCode_cases hb ⟨settings, if settings.preciseStack then some verifier
      else none⟩ hlive with
    ⟨⟨m, a'⟩, hcode, hend, hfits⟩ | ⟨⟨m, a'⟩, e, hcode, he⟩
  · obtain ⟨frames, hframes⟩ := entryFrames_total g settings hend.prepared.retains hend.live ht
    refine Or.inl ⟨a', ⟨m.body, types, verifier, m.maxStack, frames⟩, ?_,
      hend.prepared.closed, hfits⟩
    exact lower_eq_ok.2 ⟨types, verifier, m, frames, htypes, hverifier, hcode, hframes, rfl⟩
  · refine Or.inr ⟨a', e, ?_, he⟩
    simp only [lower, lowerSteps, htypes, hverifier, hcode]

end Body

/-! ### Values that share local variables -/

namespace Locals

variable {b : Body} {a : Locals} {settings : Settings}

/-- Puts values where others are, one after the other. -/
def coalesceAll (a : Locals) (pairs : List (ValueId × ValueId)) : Locals :=
  pairs.foldl (fun a pair => (a.coalesce pair.1 pair.2).2) a

theorem live_coalesceAll (a : Locals) (pairs : List (ValueId × ValueId)) :
    (a.coalesceAll pairs).live = a.live := by
  refine List.foldlRecOn (motive := fun a' : Locals => a'.live = a.live) _ _ rfl
    fun a' h pair _ => ?_
  unfold coalesce
  split
  · exact h
  · exact h

theorem naive_live_mem (hb : b.WellFormed) (h : naive settings b = .ok a) (k : BlockId) :
    ∀ v ∈ a.liveAt k, v ∈ b.values := by
  intro v hv
  obtain ⟨⟨index, w⟩, hmem, rfl⟩ := List.mem_map.1 ((naive_live h k).1 hv).2
  obtain ⟨i, -, -, hout⟩ := mem_entryArguments.1 hmem
  exact (hb.origin_of_output i w hout).1

end Locals

end JvmLowering
