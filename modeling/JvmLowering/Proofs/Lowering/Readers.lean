import JvmLowering.Proofs.Lowering.Failure
import JvmLowering.Proofs.Lowering.MoveRuns

/-!
# Who reads a value

Each value lists the instructions and the phis that read it. Whether an output is stored or popped,
and what an analysis looks at again, hangs on these lists. They are exact in every body that is
built, and after each single change on the way to stack code. Phis that have their moves are taken
off the lists.

* `Body.ReadersKnown`, `Body.PhiReadersKnown`: the lists are exact;
* `Body.Mutation`, `Body.Through`: one change, and the bodies that a run of changes goes through;
* `StackCoding.moments`: the bodies after each change that writes stack code;
* `PhiMoves.Detaching`, `PhiMoves.KeptByMoves`: the phis that are still listed while they are
  replaced, and what that keeps;
* `Body.toStackCode_readers`: the lists are exact throughout.
-/

namespace JvmLowering

/-! ### Exact lists -/

theorem Value.operands_defineBy (x : Value) (i : InsnId) :
    (x.defineBy i).operands = x.operands := by
  unfold defineBy operands
  cases ho : x.origin <;> simp [ho]

theorem Value.mem_removePhiReader {x : Value} {p q : ValueId} :
    q ∈ (x.removePhiReader p).users.phis ↔ q ≠ p ∧ q ∈ x.users.phis := by
  rw [ne_comm]
  simp [removePhiReader]

namespace Body

variable {b b' b'' : Body} {i j : InsnId} {v w p q : ValueId} {k : BlockId}
  {stored : ValueId → Prop} {ms ms' : List Body}

/-- The instructions that are listed for a value are those that have it among their inputs. What is
not there has no inputs. -/
def ReadersKnown (b : Body) : Prop :=
  ∀ v i, i ∈ (b.value v).users.instructions ↔ v ∈ (b.instruction i).inputs

/-- The phis that are listed for a value are those that have it among their operands. What is no phi
has no operands. -/
def PhiReadersKnown (b : Body) : Prop := ∀ v p, p ∈ (b.value v).users.phis ↔ v ∈ b.operands p

/-- A new stack entry has no readers, as if it were not there. -/
theorem ReadersKnown.pushStackValue (h : b.ReadersKnown) (slot : StackSlot)
    (type : DeclaredType ClassId) :
    (b.pushStackValue slot type).2.ReadersKnown := by
  intro v j
  show _ ↔ v ∈ (b.instruction j).inputs
  rw [← h v j, Body.pushStackValue, value_pushValue]
  split
  · rename_i hv
    rw [hv, value_of_notMem (Table.next_notMem b.values)]
    rfl
  · rfl

theorem ReadersKnown.pushInstruction (h : b.ReadersKnown) (hc : b.Closed) {insn : Instruction}
    (hinputs : ∀ v ∈ insn.inputs, v ∈ b.values) : (b.pushInstruction insn).2.ReadersKnown := by
  intro v j
  rw [mem_readers_pushInstruction, instruction_pushInstruction]
  by_cases hj : j = b.instructions.next
  · have hold : j ∉ (b.value v).users.instructions :=
      fun hmem => Table.next_notMem _ (hj ▸ hc.readers v j hmem)
    rw [if_pos hj, or_iff_left hold]
    exact ⟨fun hv => hv.2.1, fun hv => ⟨hj, hv, hinputs v hv⟩⟩
  · rw [if_neg hj, or_iff_right fun hv => hj hv.1]
    exact h v j

/-- The old input stays in the list of its readers if it is among the inputs elsewhere. -/
theorem ReadersKnown.replaceInput (h : b.ReadersKnown) (n : Nat) (hi : i ∈ b.instructions)
    (hw : w ∈ b.values) :
    (b.replaceInput i n w).ReadersKnown := by
  intro v j
  rw [instruction_replaceInput _ _ _ hi]
  cases hold : (b.instruction i).inputs[n]? with
  | none =>
    -- there is no such input, so nothing changes
    have hlen := List.getElem?_eq_none_iff.1 hold
    unfold Body.replaceInput
    rw [hold]
    simp only
    rw [h v j, List.set_eq_of_length_le hlen]
    split
    · rename_i hji
      rw [hji]
    · rfl
  | some old =>
    obtain ⟨hn, hget⟩ := List.getElem?_eq_some_iff.1 hold
    rw [mem_readers_replaceInput _ _ _ _ _ hold, h v j]
    by_cases hji : j = i
    · subst hji
      simp only [true_and, if_true]
      constructor
      · rintro (⟨rfl, -⟩ | ⟨hv, hkept⟩)
        · exact List.mem_set hn v
        -- an input that is left was at the replaced position only, and then it is not read
        · by_contra hnot
          obtain ⟨m, hm, rfl⟩ := List.getElem_of_mem hv
          by_cases hmn : n = m
          · subst hmn
            exact hkept ⟨hget, hget ▸ hnot⟩
          · refine hnot (List.mem_iff_getElem.2 ⟨m, by simpa using hm, ?_⟩)
            rw [List.getElem_set_ne hmn]
      · intro hv
        rcases List.mem_or_eq_of_mem_set hv with hmem | rfl
        · exact Or.inr ⟨hmem, fun hgone => hgone.2 (hgone.1 ▸ hv)⟩
        · exact Or.inl ⟨rfl, hw⟩
    · simp [hji]

theorem ReadersKnown.replaceOutput (h : b.ReadersKnown) (hi : i ∈ b.instructions) (w : ValueId) :
    (b.replaceOutput i w).ReadersKnown := by
  intro v j
  rw [users_replaceOutput, instruction_replaceOutput _ _ hi, h v j]
  split
  · rename_i hji
    rw [hji]
  · rfl

theorem ReadersKnown.change (h : b.ReadersKnown) (hc : b.Closed) (hchange : Change i stored b b') :
    b'.ReadersKnown := by
  cases hchange with
  | entry slot type => exact h.pushStackValue slot type
  | push inputs output block => exact h.pushInstruction hc inputs
  | input there mem => exact h.replaceInput _ there mem
  | output there mem stack => exact h.replaceOutput there _

theorem ReadersKnown.changes (h : b.ReadersKnown) (hc : b.Closed)
    (hchanges : Changes i stored b b') : b'.ReadersKnown := by
  induction hchanges with
  | refl => exact h
  | tail hfirst hlast ih => exact ih.change (Changes.closed hfirst hc) hlast

/-- No change makes a phi or gives one an operand. -/
theorem Change.operands (h : Change i stored b b') (p : ValueId) :
    b'.operands p = b.operands p := by
  have horigin : ∀ {x y : Value}, x.origin = y.origin → x.operands = y.operands := by
    intro x y h
    rw [Value.operands, Value.operands, h]
  -- no change makes a phi or an operand of one
  cases h with
  | entry slot type =>
    rw [Body.operands, Body.operands, pushStackValue, value_pushValue]
    split
    · rename_i hp
      rw [hp, value_of_notMem (Table.next_notMem b.values)]
      rfl
    · rfl
  | @push insn inputs output block =>
    have ho := origin_pushInstruction b p insn
    split at ho
    · exact (horigin ho).trans (Value.operands_defineBy _ _)
    · exact horigin ho
  | input => exact horigin (origin_replaceInput ..)
  | @output w there mem stack =>
    by_cases hp : p = w
    · subst hp
      have hvalue : (b.replaceOutput i p).value p = (b.value p).defineBy i := by
        rw [replaceOutput, value_modifyValue, if_pos ⟨rfl, mem⟩, value_modifyInstruction]
      rw [Body.operands, hvalue, Value.operands_defineBy]
      rfl
    · exact horigin (origin_replaceOutput _ _ _ _ hp)

theorem PhiReadersKnown.change (h : b.PhiReadersKnown) (hchange : Change i stored b b') :
    b'.PhiReadersKnown := by
  intro v p
  rw [Changes.phiReaders (.single hchange), hchange.operands, h v p]

/-! ### One change after the other -/

/-- One change on the way to stack code. -/
inductive Mutation : Body → Body → Prop
  | change {b b' : Body} {i : InsnId} (change : Change i (fun _ => True) b b') : Mutation b b'
  | instructions {b : Body} {k : BlockId} {is : List InsnId} (mem : k ∈ b.blocks)
      (there : ∀ j ∈ is, j ∈ b.instructions) :
      Mutation b (b.setInstructions k is)

/-- The bodies after each of some changes, one after the other. -/
inductive Through : Body → List Body → Body → Prop
  | nil (b : Body) : Through b [] b
  | cons {b b' b'' : Body} {ms : List Body} (first : Mutation b b') (rest : Through b' ms b'') :
      Through b (b' :: ms) b''

theorem Mutation.closed (h : Mutation b b') (hc : b.Closed) : b'.Closed := by
  cases h with
  | change change => exact change.closed hc
  | instructions mem there => exact hc.setInstructions mem there

theorem Mutation.through (h : Mutation b b') : Through b [b'] b' := .cons h (.nil b')

theorem Through.append (h : Through b ms b') (h' : Through b' ms' b'') :
    Through b (ms ++ ms') b'' := by
  induction h with
  | nil b => exact h'
  | cons first _ ih => exact .cons first (ih h')

/-- What every change keeps of a body that refers to nothing that is not there holds of all bodies
gone through. -/
theorem Through.preserves {P : Body → Prop} (hstep : ∀ b b', b.Closed → P b → Mutation b b' → P b')
    (h : Through b ms b') (hc : b.Closed) (hb : P b) : (∀ f ∈ ms, P f) ∧ P b' := by
  induction h with
  | nil b => exact ⟨fun f hf => absurd hf List.not_mem_nil, hb⟩
  | cons first _ ih =>
    have hnext := hstep _ _ hc hb first
    have hclosed := first.closed hc
    exact ⟨List.forall_mem_cons.2 ⟨hnext, (ih hclosed hnext).1⟩, (ih hclosed hnext).2⟩

theorem Mutation.readersKnown (h : Mutation b b') (hc : b.Closed)
    (hb : b.ReadersKnown ∧ b.PhiReadersKnown) :
    b'.ReadersKnown ∧ b'.PhiReadersKnown := by
  cases h with
  | change change => exact ⟨hb.1.change hc change, hb.2.change change⟩
  | instructions => exact hb

end Body

/-! ### The changes that write stack code -/

/-- The bodies that some steps go through, none of which fails. -/
def attemptMoments {σ α ε : Type} (step : σ → α → σ × Option ε) (moments : σ → α → List Body) :
    σ → List α → List Body
  | _, [] => []
  | s, a :: l => moments s a ++ attemptMoments step moments (step s a).1 l

theorem attemptMoments_through {σ α ε : Type} {step : σ → α → σ × Option ε}
    {moments : σ → α → List Body} (body : σ → Body) {P : List α → σ → Prop}
    (hstep : ∀ a l s, P (a :: l) s → ∃ s', step s a = (s', none) ∧ P l s' ∧
      Body.Through (body s) (moments s a) (body s')) {l : List α} {s : σ} (hs : P l s) :
    Body.Through (body s) (attemptMoments step moments s l) (body (attemptAll step s l).1) := by
  induction l generalizing s with
  | nil => exact .nil _
  | cons a l ih =>
    obtain ⟨t, ht, hl, hthrough⟩ := hstep a l s hs
    unfold attemptMoments attemptAll
    rw [ht]
    exact hthrough.append (ih hl)

namespace StackCoding

open Body Emitter

section Moments

variable (c : StackCoding) (k : BlockId)

/-- A value is pushed: its entry is made, and then the instruction. -/
def pushMoments (line : Option UInt32) (e : Emitter) (v : ValueId) : List Body :=
  [(e.pushEntry v (c.stackType e.body v)).2.body, (c.pushOperand k line e v).2.body]

/-- An input is pushed, and then replaced. -/
def loadMoments (i : InsnId) (line : Option UInt32) (e : Emitter) (input : ValueId × Nat) :
    List Body :=
  c.pushMoments k line e input.1 ++ [(c.loadInput k i line e input).1.body]

/-- An output gets an entry and is replaced, and the entry is popped. -/
def storeMoments (i : InsnId) (line : Option UInt32) (e : Emitter) (v : ValueId) : List Body :=
  let (entry, pushed) := e.pushEntry v (c.stackType e.body v)
  [pushed.body, pushed.body.replaceOutput i entry, (c.storeOutput k i line e v).body]

def convertMoments (e : Emitter) (i : InsnId) : List Body :=
  let insn := e.body.instruction i
  if insn.operation.isArgument || c.isDropped e.body insn then []
  else
    let loaded := (attemptAll (c.loadInput k i insn.line) e insn.inputs.zipIdx).1
    attemptMoments (c.loadInput k i insn.line) (c.loadMoments k i insn.line) e insn.inputs.zipIdx ++
      insn.output.elim [] (c.storeMoments k i insn.line (loaded.popEntries insn.inputs))

/-- The list of instructions is taken out of a block, and put back when all of them are
converted. -/
def blockMoments (l : Lowering) (k : BlockId) : List Body :=
  let start : Emitter := { l with body := l.body.setInstructions k [] }
  start.body :: attemptMoments (c.convert k) (c.convertMoments k) start
    (l.body.block k).instructions ++ [(c.convertBlock l k).1.body]

/-- The bodies after each change that turns a body into stack code. -/
def moments (b : Body) : List Body :=
  attemptMoments c.convertBlock c.blockMoments { body := b } b.blocks.indices

end Moments

variable {c : StackCoding} {b : Body} {e : Emitter} {i : InsnId} {v : ValueId} {k : BlockId}
  {converted : InsnId → Prop}

theorem pushOperand_through (c : StackCoding) (line : Option UInt32) (hv : v ∈ e.body.values)
    (hk : k ∈ e.body.blocks) :
    Through e.body (c.pushMoments k line e v) (c.pushOperand k line e v).2.body := by
  obtain ⟨hpushed, hentry, hstack⟩ :=
    writes_pushEntry .first (fun _ => True) e v (c.stackType e.body v)
  have hr := hpushed.changes.retains
  obtain ⟨event, heq⟩ := pushOperand_eq c k line hv
  have hemit : Change .first (fun _ => True) (e.pushEntry v (c.stackType e.body v)).2.body
      (c.pushOperand k line e v).2.body := by
    rw [heq]
    refine .push (fun u hu => hr.mem_values u ?_) (fun u hu => ?_) ((hr.mem_blocks _).2 ?_)
    · unfold pushing at hu
      split at hu <;> simp_all
    · unfold pushing at hu
      split at hu <;> exact Option.some.inj hu ▸ ⟨hentry, Or.inl hstack⟩
    · unfold pushing
      split <;> exact hk
  exact .cons (.change (.entry (i := .first) ..)) (Mutation.change hemit).through

theorem loadInput_through (c : StackCoding) (line : Option UInt32) (n : Nat)
    (hv : v ∈ e.body.values) (hstack : (e.body.value v).isStack = false)
    (hi : i ∈ e.body.instructions) (hk : k ∈ e.body.blocks) :
    Through e.body (c.loadMoments k i line e (v, n)) (c.loadInput k i line e (v, n)).1.body := by
  obtain ⟨hpushed, hentry⟩ := pushOperand_writes c i (fun _ => True) line hv hk
  have hinput : Change i (fun _ => True) (c.pushOperand k line e v).2.body
      (c.loadInput k i line e (v, n)).1.body := by
    have hloads := c.loads k i line e v n
    generalize c.loadInput k i line e (v, n) = outcome at hloads ⊢
    cases hloads with
    | refused onStack => simp [hstack] at onStack
    | pushed => exact .input (hpushed.changes.retains.mem_instructions i hi) hentry
  exact (pushOperand_through c line hv hk).append (Mutation.change hinput).through

theorem loadInputs_through (c : StackCoding) (line : Option UInt32) {inputs : List (ValueId × Nat)}
    (hinputs : ∀ x ∈ inputs, x.1 ∈ e.body.values ∧ (e.body.value x.1).isStack = false)
    (hi : i ∈ e.body.instructions) (hk : k ∈ e.body.blocks) :
    Through e.body (attemptMoments (c.loadInput k i line) (c.loadMoments k i line) e inputs)
      (attemptAll (c.loadInput k i line) e inputs).1.body := by
  refine attemptMoments_through (fun e => e.body) (P := fun (inputs : List (ValueId × Nat)) e' =>
    (∀ x ∈ inputs, x.1 ∈ e.body.values ∧ (e.body.value x.1).isStack = false) ∧
      Writes i (fun _ => True) e e')
    (fun x rest e' h => ?_) ⟨hinputs, Writes.refl e⟩
  obtain ⟨hrest, hwrites⟩ := h
  obtain ⟨hx, hrest⟩ := List.forall_mem_cons.1 hrest
  have hr := hwrites.changes.retains
  have hv := hr.mem_values _ hx.1
  have hi' := hr.mem_instructions i hi
  have hk' := (hr.mem_blocks k).2 hk
  obtain ⟨e'', he'', hwrites'⟩ :=
    loadInput_total c (fun _ => True) line x.2 hv (hr.isStack hx.2) hi' hk'
  have hthrough := loadInput_through c line x.2 hv (hr.isStack hx.2) hi' hk'
  rw [he''] at hthrough
  exact ⟨e'', he'', ⟨hrest, hwrites.trans hwrites'⟩, hthrough⟩

theorem storeOutput_through (c : StackCoding) (line : Option UInt32) (hv : v ∈ e.body.values)
    (hi : i ∈ e.body.instructions) (hk : k ∈ e.body.blocks) :
    Through e.body (c.storeMoments k i line e v) (c.storeOutput k i line e v).body := by
  obtain ⟨hpushed, hentry, hstack⟩ := writes_pushEntry i (fun _ => True) e v (c.stackType e.body v)
  have houtput : Change i (fun _ => True) (e.pushEntry v (c.stackType e.body v)).2.body
    (placeOutput e i v (c.stackType e.body v)).body :=
    .output (hpushed.changes.retains.mem_instructions i hi) hentry hstack
  obtain ⟨hplaced, hentry'⟩ := placeOutput_writes (fun _ => True) v (c.stackType e.body v) hi
  have hr := hplaced.changes.retains
  have hpop : Change i (fun _ => True) (placeOutput e i v (c.stackType e.body v)).body
      (c.storeOutput k i line e v).body := by
    rw [storeOutput_eq]
    split
    · exact .push (fun u hu => List.mem_singleton.1 hu ▸ hentry') (fun u hu => by simp at hu)
        ((hr.mem_blocks k).2 hk)
    · refine .push (fun u hu => List.mem_singleton.1 hu ▸ hentry') (fun u hu => ?_)
        ((hr.mem_blocks k).2 hk)
      exact Option.some.inj hu ▸ ⟨hr.mem_values v hv, Or.inr ⟨rfl, trivial⟩⟩
  exact .cons (.change (.entry (i := i) ..))
    (.cons (.change houtput) (Mutation.change hpop).through)

/-- An instruction that has not been converted goes through the changes that convert it. -/
theorem convert_through (hb : b.WellFormed) (h : Halfway c b converted e.body)
    (hi : i ∈ b.instructions) (hnot : ¬ converted i) (hk : k ∈ b.blocks) :
    Through e.body (c.convertMoments k e i) (c.convert k e i).1.body := by
  have hi' := h.retains.mem_instructions i hi
  have hk' := (h.retains.mem_blocks k).2 hk
  -- while the inputs are loaded, every body in between has its readers
  have hinputs := loadInputs_through c (b.instruction i).line (h.inputs (i := i) hb) hi' hk'
  obtain ⟨loaded, hloaded, hwrites⟩ := loadInputs_total c (fun _ => True) (b.instruction i).line
    (h.inputs (i := i) hb) hi' hk'
  rw [hloaded] at hinputs
  obtain ⟨stack, hpopped⟩ := popEntries_eq loaded (b.instruction i).inputs
  have hr := hwrites.changes.retains
  have hconverts := c.converts k e i
  generalize c.convert k e i = outcome at hconverts ⊢
  unfold convertMoments
  rw [h.instruction i hi hnot] at hconverts ⊢
  cases hconverts with
  -- then there are those of the output, if it has one
  | argument isArgument =>
    simp only [isArgument, Bool.true_or, if_true]
    exact .nil _
  | dropped _ isDropped =>
    simp only [isDropped, Bool.or_true, if_true]
    exact .nil _
  | refused _ _ hrefused => simp [hloaded] at hrefused
  | effect isArgument isDropped hloaded' output =>
    obtain rfl := congrArg Prod.fst (hloaded.symm.trans hloaded')
    simp only [isArgument, isDropped, Bool.or_false, Bool.false_eq_true, if_false, output, hpopped]
    exact hinputs.append (.nil _)
  | misplaced _ _ hloaded' output onStack =>
    obtain rfl := congrArg Prod.fst (hloaded.symm.trans hloaded')
    rw [hpopped] at onStack
    have hv := (hb.origin_of_output i _ output).1
    exact absurd onStack (Bool.eq_false_iff.1 (hr.isStack (h.isStack hb hv)))
  | @result _ v isArgument isDropped hloaded' output =>
    obtain rfl := congrArg Prod.fst (hloaded.symm.trans hloaded')
    simp only [isArgument, isDropped, Bool.or_false, Bool.false_eq_true, if_false, output,
      hpopped, hloaded]
    have hv := (hb.origin_of_output i v output).1
    exact hinputs.append
      (storeOutput_through (e := { loaded with stack }) c (b.instruction i).line
      (hr.mem_values v (h.retains.mem_values v hv)) (hr.mem_instructions i hi')
      ((hr.mem_blocks k).2 hk'))

theorem convertAll_through (hb : b.WellFormed) (hk : k ∈ b.blocks) {is : List InsnId}
    (hnodup : is.Nodup) (his : ∀ i ∈ is, i ∈ b.instructions ∧ ¬ converted i)
    (h : Halfway c b converted e.body) :
    Through e.body (attemptMoments (c.convert k) (c.convertMoments k) e is)
      (attemptAll (c.convert k) e is).1.body := by
  refine attemptMoments_through (fun e => e.body) (P := fun is (e : Emitter) => ∃ converted,
    Halfway c b converted e.body ∧ is.Nodup ∧ ∀ i ∈ is, i ∈ b.instructions ∧ ¬ converted i)
    (fun i is e h => ?_) ⟨converted, h, hnodup, his⟩
  obtain ⟨converted, h, hnodup, his⟩ := h
  obtain ⟨⟨hi, hnot⟩, his⟩ := List.forall_mem_cons.1 his
  obtain ⟨hiis, hnodup⟩ := List.nodup_cons.1 hnodup
  obtain ⟨e', he', -, h'⟩ := convert_total hb h hi hnot hk
  have hthrough := convert_through hb h hi hnot hk
  rw [he'] at hthrough
  refine ⟨e', he', ⟨_, h', hnodup, fun j hj => ⟨(his j hj).1, not_or.2 ⟨(his j hj).2, ?_⟩⟩⟩,
    hthrough⟩
  rintro rfl
  exact hiis hj

theorem convertBlock_through (hb : b.WellFormed) {ks : List BlockId} {m : Lowering}
    (h : Remaining c b (k :: ks) m.body) :
    Through m.body (c.blockMoments m k) (c.convertBlock m k).1.body := by
  obtain ⟨hkb, -⟩ := List.forall_mem_cons.1 h.mem_blocks
  have hkm : k ∈ m.body.blocks := (h.halfway.retains.mem_blocks k).2 hkb
  obtain ⟨hstart, his⟩ := h.takeOut hb
  have hthrough :=
    convertAll_through (e := { m with body := m.body.setInstructions k [] }) hb hkb
      (hb.instructions_nodup k) his hstart
  obtain ⟨e, he, hhalfway, hemitted, -⟩ :=
    convertAll_total (e := { m with body := m.body.setInstructions k [] }) hb hkb
      (hb.instructions_nodup k) his hstart (fun _ hj => absurd hj List.not_mem_nil)
  have hlast : Mutation e.body (e.body.setInstructions k e.emitted) :=
    .instructions ((hhalfway.retains.mem_blocks k).2 hkb) hemitted
  rw [← h.instructions k List.mem_cons_self] at he hthrough
  rw [he] at hthrough
  unfold blockMoments
  have hconverts := c.convertsBlock m k
  generalize c.convertBlock m k = outcome at hconverts ⊢
  obtain hrefused | he' := hconverts
  · simp [he] at hrefused
  obtain rfl := congrArg Prod.fst (he.symm.trans he')
  exact .cons (.instructions hkm fun _ hj => absurd hj List.not_mem_nil)
    (hthrough.append hlast.through)

/-- The stack code of a body that is built is written by the changes that are listed. -/
theorem insertLoadsAndStores_through (hb : b.WellFormed) {m : Lowering}
    (hrun : c.insertLoadsAndStores { body := b } = (m, none)) : Through b (c.moments b) m.body := by
  have hthrough :
      Through b (c.moments b)
      (attemptAll c.convertBlock { body := b } b.blocks.indices).1.body := by
    refine attemptMoments_through (fun m : Lowering => m.body)
      (P := fun ks m => Remaining c b ks m.body) (fun k ks m h => ?_) (s := { body := b })
      (remaining_start hb c)
    obtain ⟨m', hm', h'⟩ := convertBlock_total hb h
    have hblock := convertBlock_through hb h
    rw [hm'] at hblock
    exact ⟨m', hm', h', hblock⟩
  obtain ⟨m₁, hm₁, rfl⟩ := insertLoadsAndStores_run hrun
  rwa [hm₁] at hthrough

end StackCoding

/-! ### Phis that have their moves -/

namespace PhiMoves

open Body StackCoding

variable {c : StackCoding} {b b' f : Body} {m m' : Lowering} {a : Locals} {v p q : ValueId}
  {k source : BlockId} {position : Nat} {ks : List BlockId}

/-- A phi is taken off the lists of its operands, and nothing else is. -/
theorem mem_readers_detach (b : Body) (p : ValueId) :
    (∀ w j, j ∈ ((detach b p).value w).users.instructions ↔ j ∈ (b.value w).users.instructions) ∧
      ∀ w q, q ∈ ((detach b p).value w).users.phis ↔ q ∈ (b.value w).users.phis ∧
        ¬ (q = p ∧ w ∈ b.operands p) := by
  unfold detach
  induction b.operands p generalizing b with
  | nil => simp
  | cons v vs ih =>
    obtain ⟨hreaders, hphis⟩ := ih (b.modifyValue v (·.removePhiReader p))
    refine ⟨fun w j => (hreaders w j).trans ?_, fun w q => (hphis w q).trans ?_⟩
    · rw [value_modifyValue]
      split <;> rfl
    · rw [value_modifyValue, List.mem_cons]
      split
      · rename_i hw
        rw [Value.mem_removePhiReader, hw.1]
        grind
      · rename_i hw
        by_cases hmem : w ∈ b.values
        · have hne : w ≠ v := fun h => hw ⟨h.symm, hmem⟩
          simp [hne]
        · simp [value_of_notMem hmem, default]

theorem operands_detach (b : Body) (p q : ValueId) : (detach b p).operands q = b.operands q := by
  unfold detach
  refine List.foldlRecOn (motive := fun b' : Body => b'.operands q = b.operands q) _ _ rfl
    fun b' h v _ => ?_
  have hsame : ((b'.modifyValue v (·.removePhiReader p)).value q).operands =
      (b'.value q).operands :=
    value_modifyValue_congr _ _ _ Value.operands fun _ => rfl
  exact hsame.trans h

theorem mem_readers_detachAll (b : Body) (phis : List ValueId) :
    (∀ w j, j ∈ ((phis.foldl detach b).value w).users.instructions ↔
      j ∈ (b.value w).users.instructions) ∧
      ∀ w q, q ∈ ((phis.foldl detach b).value w).users.phis ↔ q ∈ (b.value w).users.phis ∧
        ¬ (q ∈ phis ∧ w ∈ b.operands q) := by
  induction phis generalizing b with
  | nil => simp
  | cons p phis ih =>
    obtain ⟨hreaders, hphis⟩ := ih (detach b p)
    obtain ⟨hfirst, hfirst'⟩ := mem_readers_detach b p
    refine ⟨fun w j => (hreaders w j).trans (hfirst w j), fun w q => (hphis w q).trans ?_⟩
    rw [hfirst', operands_detach, List.mem_cons]
    grind

/-- The phis of some blocks are still to be replaced by moves. Only they are listed as readers. -/
structure Detaching (b : Body) (pending : List BlockId) (b' : Body) : Prop where
  nodup : pending.Nodup
  retains : b.Retains b'
  closed : b'.Closed
  readers : b'.ReadersKnown
  phiReaders : ∀ v p, p ∈ (b'.value v).users.phis ↔ v ∈ b.operands p ∧ ∃ k ∈ pending,
    p ∈ (b.block k).phis

theorem Detaching.changes {i : InsnId} {stored : ValueId → Prop} (h : Detaching b ks b')
    (hc : Changes i stored b' f) :
    Detaching b ks f where
  nodup := h.nodup
  retains := h.retains.trans hc.retains
  closed := hc.closed h.closed
  readers := h.readers.changes h.closed hc
  phiReaders v p := by rw [hc.phiReaders, h.phiReaders]

theorem Detaching.operands (hb : b.WellFormed) (h : Detaching b ks b') (hp : p ∈ (b.block k).phis) :
    b'.operands p = b.operands p := by
  obtain ⟨operands, ho⟩ := (hb.mem_phis k p).1 hp
  rw [Body.operands, Body.operands, Value.operands, Value.operands, ho,
    h.retains.phi p k operands ho]

/-- Moves of operands into the phis of the block can be added. -/
theorem Detaching.insert (hb : b.WellFormed) (h : Detaching b ks m.body)
    (hsource : source ∈ b.blocks) {ms : List PhiMove}
    (hms : ∀ n ∈ ms, n.phi ∈ (b.block k).phis ∧ n.operand ∈ b.operands n.phi) :
    Detaching b ks (PhiMoves.insert c m source ms).body := by
  obtain ⟨f, is, hchanges, his, hbody⟩ :=
    insert_changes c (fun _ => True) h.closed ((h.retains.mem_blocks source).2 hsource) fun n hn =>
      ⟨h.retains.mem_values _ (hb.operands_mem _ _ (hms n hn).2),
      h.retains.mem_values _ (mem_values_of_isPhi (hb.isPhi_of_mem_phis (hms n hn).1)), trivial⟩
  have hwritten := h.changes hchanges
  have hk := (hwritten.retains.mem_blocks source).2 hsource
  rw [hbody]
  exact ⟨hwritten.nodup, hwritten.retains.trans (retains_setInstructions hk is),
    hwritten.closed.setInstructions hk his, hwritten.readers, hwritten.phiReaders⟩

/-- What is done on an edge is to add such moves, if there are any. -/
theorem Detaching.insertOnEdge_cases (hb : b.WellFormed) (h : Detaching b ks m.body)
    (hrun : insertOnEdge c a k (b.block k).phis m (source, position) = (m', none)) :
    m' = m ∨ ∃ ms, m' = PhiMoves.insert c m source ms ∧
      ∀ n ∈ ms, n.phi ∈ (b.block k).phis ∧ n.operand ∈ b.operands n.phi := by
  have hmoving := moves c a k (b.block k).phis m source position
  rw [hrun] at hmoving
  cases hmoving with
  | unmoved => exact Or.inl rfl
  | moved =>
    refine Or.inr ⟨_, rfl, fun n hn => ?_⟩
    obtain ⟨⟨hp, hv⟩, -⟩ := mem_onEdge.1 hn
    rw [h.operands hb hp] at hv
    exact ⟨hp, List.mem_of_getElem? hv⟩

/-- A phi stands in one block only, so its readers are gone when that block is done. -/
theorem Detaching.detachAll (hb : b.WellFormed) (h : Detaching b (k :: ks) b') :
    Detaching b ks ((b.block k).phis.foldl detach b') := by
  obtain ⟨hk, hnodup⟩ := List.nodup_cons.1 h.nodup
  obtain ⟨hreaders, hphis⟩ := mem_readers_detachAll b' (b.block k).phis
  -- detaching changes no code
  have hgrows : b'.Grows ((b.block k).phis.foldl detach b') ∧
      ((b.block k).phis.foldl detach b').Closed :=
    List.foldlRecOn (motive := fun f : Body => b'.Grows f ∧ f.Closed) _ _ ⟨.refl b', h.closed⟩
      fun f hf p _ => ⟨hf.1.trans (grows_detach f p), closed_detach hf.2 p⟩
  have hinstruction : ∀ j,
      ((b.block k).phis.foldl detach b').instruction j = b'.instruction j := fun j =>
    List.foldlRecOn (motive := fun f : Body => f.instruction j = b'.instruction j) _ _ rfl
      fun f hf p _ => hf ▸ List.foldlRecOn
        (motive := fun f' : Body => f'.instruction j = f.instruction j)
        (f.operands p) _ rfl fun _ hf' _ _ => hf'
  refine ⟨hnodup, h.retains.trans hgrows.1.toRetains, hgrows.2, fun v j => ?_, fun v p => ?_⟩
  · rw [hreaders, hinstruction]
    exact h.readers v j
  -- the phis of the block are gone; a phi is in one block only, so the others are left
  · rw [hphis, h.phiReaders]
    constructor
    · rintro ⟨⟨hv, l, hl, hp⟩, hnot⟩
      refine ⟨hv, l, (List.mem_cons.1 hl).resolve_left ?_, hp⟩
      rintro rfl
      exact hnot ⟨hp, (h.operands hb hp).symm ▸ hv⟩
    · rintro ⟨hv, l, hl, hp⟩
      refine ⟨⟨hv, l, List.mem_cons_of_mem k hl, hp⟩, fun hgone => ?_⟩
      obtain ⟨operands, ho⟩ := (hb.mem_phis l p).1 hp
      obtain ⟨operands', ho'⟩ := (hb.mem_phis k p).1 hgone.1
      rw [ho] at ho'
      exact hk ((Origin.phi.inj ho').1 ▸ hl)

/-- Moves into the phis of a block that is still to be done keep a property, and so does taking phis
off the lists of readers. -/
structure KeptByMoves (c : StackCoding) (b : Body) (motive : Body → Prop) : Prop where
  insert : ∀ k ks (m : Lowering) (source : BlockId) (ms : List PhiMove), source ∈ b.blocks →
    Detaching b (k :: ks) m.body →
    (∀ n ∈ ms, n.phi ∈ (b.block k).phis ∧ n.operand ∈ b.operands n.phi) →
    motive m.body → motive (PhiMoves.insert c m source ms).body
  detach : ∀ f p, motive f → motive (detach f p)

/-- What is kept holds when a block is done, and its phis are no longer listed. -/
theorem Detaching.resolveBlock (hb : b.WellFormed) {motive : Body → Prop}
    (hkept : KeptByMoves c b motive) {s s' : Lowering × Locals} (h : Detaching b (k :: ks) s.1.body)
    (hs : motive s.1.body) (hrun : resolveBlock c s k = (s', none)) :
    Detaching b ks s'.1.body ∧ motive s'.1.body := by
  obtain ⟨m, a⟩ := s
  have hresolves := resolves c m a k
  rw [hrun] at hresolves
  cases hresolves with
  | unphied hnone =>
    have hdetached := h.detachAll hb
    rw [← h.retains.phis, hnone] at hdetached
    exact ⟨hdetached, hs⟩
  | resolved _ _ hinserted =>
    rw [h.retains.phis, h.retains.predecessors] at hinserted
    rw [h.retains.phis]
    have hedges : ∀ x ∈ (b.block k).predecessors.zipIdx, x.1 ∈ b.blocks := fun x hx =>
      hb.closed.predecessors k x.1 (List.mem_of_getElem? (List.mem_zipIdx_iff_getElem?.1 hx))
    -- every edge keeps the motive, and so does every phi that is detached after them
    have hall := attemptAll_ok (motive := fun edges (m : Lowering) =>
      (∀ x ∈ edges, x.1 ∈ b.blocks) ∧ Detaching b (k :: ks) m.body ∧ motive m.body)
      (fun x edges m m' hstep hm => ?step) hinserted ⟨hedges, h, hs⟩
    case step =>
      obtain ⟨hedges, hm, hmotive⟩ := hm
      obtain ⟨hx, hedges⟩ := List.forall_mem_cons.1 hedges
      rcases hm.insertOnEdge_cases hb hstep with rfl | ⟨ms, rfl, hms⟩
      · exact ⟨hedges, hm, hmotive⟩
      · exact ⟨hedges, hm.insert hb hx hms, hkept.insert k ks m x.1 ms hx hm hms hmotive⟩
    exact ⟨hall.2.1.detachAll hb, List.foldlRecOn _ _ hall.2.2 fun f hf p _ => hkept.detach f p hf⟩

theorem Detaching.insertPhiMoves (hb : b.WellFormed) {motive : Body → Prop}
    (hkept : KeptByMoves c b motive) {s : Lowering × Locals}
    (h : Detaching b m.body.blocks.indices m.body) (hm : motive m.body)
    (hrun : c.insertPhiMoves m a = (s, none)) : Detaching b [] s.1.body ∧ motive s.1.body :=
  attemptAll_ok (motive := fun ks (s : Lowering × Locals) => Detaching b ks s.1.body ∧
    motive s.1.body)
    (fun _ _ _ _ hstep hs => hs.1.resolveBlock hb hkept hs.2 hstep) hrun ⟨h, hm⟩

end PhiMoves

/-! ### All of it -/

namespace Body

open StackCoding PhiMoves

variable {b : Body}

theorem WellFormed.readersKnown (hb : b.WellFormed) : b.ReadersKnown ∧ b.PhiReadersKnown :=
  ⟨hb.mem_readers, hb.mem_phiReaders⟩

/-- All phis are still to be replaced when the stack code has been written. -/
theorem detaching_of_halfway {c : StackCoding} {b' : Body} (hb : b.WellFormed)
    (h : Halfway c b (fun _ => True) b')
    (hreaders : b'.ReadersKnown) : Detaching b b'.blocks.indices b' := by
  refine ⟨Table.nodup_indices _, h.retains, h.closed, hreaders, fun v p => ?_⟩
  rw [h.phiReaders, hb.mem_phiReaders, iff_self_and]
  intro hv
  obtain ⟨k, ho⟩ := origin_of_isPhi (isPhi_of_operand hv)
  exact ⟨k, Table.mem_indices.2 ((h.retains.mem_blocks k).2 (hb.closed.phi p k _ ho).1),
    (hb.mem_phis k p).2 ⟨_, ho⟩⟩

/-- **The readers of each value are exactly those that are listed**, whatever has been built and
after each change that writes stack code. When also the phis are replaced by moves, no phi is listed
any more. -/
theorem toStackCode_readers (hb : b.Built) (c : StackCoding) (a : Locals) :
    (b.ReadersKnown ∧ b.PhiReadersKnown) ∧
      (∀ p v e, b.addPhiOperand p v = .error e → b.construct (.operand p v) = b) ∧
      (∃ m, c.insertLoadsAndStores { body := b } = (m, none) ∧ Through b (c.moments b) m.body ∧
        (∀ f ∈ c.moments b, f.ReadersKnown ∧ f.PhiReadersKnown) ∧ m.body.ReadersKnown ∧
        m.body.PhiReadersKnown) ∧
      ∀ m a', b.toStackCode c a = ((m, a'), none) → m.body.ReadersKnown ∧ ∀ v p,
          p ∉ (m.body.value v).users.phis := by
  have hw := hb.wellFormed
  obtain ⟨coded, hcoded, hhalfway⟩ := insertLoadsAndStores_total hw c
  have hthrough := insertLoadsAndStores_through hw hcoded
  obtain ⟨hall, hend⟩ := hthrough.preserves (P := fun f => f.ReadersKnown ∧ f.PhiReadersKnown)
    (fun _ _ hc hf hstep => hstep.readersKnown hc hf) hw.closed hw.readersKnown
  refine ⟨hw.readersKnown, fun p v e he => ?_, ⟨coded, hcoded, hthrough, hall, hend⟩,
    fun m a' hcode => ?_⟩
  · rw [construct, he]
    rfl
  · obtain ⟨coded', hcoded', hcode⟩ := toStackCode_run hcode
    obtain rfl := congrArg Prod.fst (hcoded.symm.trans hcoded')
    obtain ⟨hdone, -⟩ :=
      (detaching_of_halfway hw hhalfway hend.1).insertPhiMoves (motive := fun _ => True) hw
        ⟨fun _ _ _ _ _ _ _ _ _ => trivial, fun _ _ _ => trivial⟩ trivial hcode
    refine ⟨hdone.readers, fun v p hp => ?_⟩
    obtain ⟨-, k, hk, -⟩ := (hdone.phiReaders v p).1 hp
    exact absurd hk List.not_mem_nil

/-- A run without an error, and something that can be seen of its body. -/
theorem toStackCode_of_check {c : StackCoding} {a : Locals} (q : Body → Bool)
    (h : ((b.toStackCode c a).2.isNone && q (b.toStackCode c a).1.1.body) = true) :
    ∃ m a', b.toStackCode c a = ((m, a'), none) ∧ q m.body = true := by
  obtain ⟨⟨⟨m, a'⟩, e⟩, hrun⟩ : ∃ s, b.toStackCode c a = s := ⟨_, rfl⟩
  rw [hrun, Bool.and_eq_true, Option.isNone_iff_eq_none] at h
  obtain ⟨rfl, hq⟩ := h
  exact ⟨m, a', hrun, hq⟩

/-- A loop that doubles a number, with a phi that has one operand twice. The last step fails: an
output gets no operands. -/
def doubleLoop : Body := .ofSteps ⟨0⟩
  [.block, .block, .block, .edge ⟨0⟩ ⟨1⟩, .edge ⟨1⟩ ⟨2⟩, .edge ⟨2⟩ ⟨1⟩,
   .instruction ⟨0⟩ (.argument 0) [] (some (.field (.base .int))), .instruction ⟨0⟩ .goto,
   .phi ⟨1⟩ (.field (.base .int)), .phi ⟨1⟩ (.field (.base .int)), .instruction ⟨1⟩ .goto,
   .instruction ⟨2⟩ (.binary .add) [⟨1⟩, ⟨1⟩] (some (.field (.base .int))), .instruction ⟨2⟩ .goto,
   .operand ⟨1⟩ ⟨0⟩, .operand ⟨1⟩ ⟨3⟩, .operand ⟨2⟩ ⟨0⟩, .operand ⟨2⟩ ⟨0⟩, .operand ⟨3⟩ ⟨0⟩]

/-- The number is read twice by the addition, and the lists are exact in all bodies on the way. -/
theorem toStackCode_readers_doubleLoop :
    doubleLoop.construct (.operand ⟨3⟩ ⟨0⟩) = doubleLoop ∧
      (moments ⟨{}, none⟩ doubleLoop).length = 15 ∧
      (∀ f ∈ moments ⟨{}, none⟩ doubleLoop, f.ReadersKnown ∧ f.PhiReadersKnown) ∧
      ∃ m a', doubleLoop.toStackCode ⟨{}, none⟩ {} = ((m, a'), none) ∧ m.body.ReadersKnown ∧
        ∀ v p, p ∉ (m.body.value v).users.phis := by
  have hb : doubleLoop.Built := built_ofSteps _ _
  obtain ⟨-, hfailed, ⟨-, -, -, hmoments, -⟩, hcode⟩ := toStackCode_readers hb ⟨{}, none⟩ {}
  refine ⟨?_, by decide +kernel, hmoments, ?_⟩
  · have hnone : (doubleLoop.addPhiOperand ⟨3⟩ ⟨0⟩).toOption.isNone = true := by decide +kernel
    cases h : doubleLoop.addPhiOperand ⟨3⟩ ⟨0⟩ with
    | error e => exact hfailed _ _ e h
    | ok f => simp [h, Except.toOption] at hnone
  · obtain ⟨m, a', hrun, -⟩ :=
      toStackCode_of_check (b := doubleLoop) (c := ⟨{}, none⟩) (a := {}) (fun _ => true)
        (by decide +kernel)
    exact ⟨m, a', hrun, hcode m a' hrun⟩

end Body

end JvmLowering
