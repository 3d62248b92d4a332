import JvmLowering.Proofs.Lowering.Rewriting
import JvmLowering.Proofs.Lowering.Translation

/-!
# Stack code can always be written

No value of a body that is built is on the stack, and each instruction is converted once. So its
inputs and its output are not on the stack yet when it is converted, and nothing stands in the way.

* `Emitter.Writes`: an emitter that has written some code;
* `StackCoding.Halfway`: a body of which some instructions have been converted;
* `StackCoding.insertLoadsAndStores_total`: all of them can be.
-/

namespace JvmLowering

/-! ### Writing code -/

namespace Emitter

open Body

variable {e e' e'' : Emitter} {i j : InsnId} {stored : ValueId → Prop}

/-- Some code has been written: the body has been changed, and what has been emitted is there. -/
structure Writes (i : InsnId) (stored : ValueId → Prop) (e e' : Emitter) : Prop where
  changes : Changes i stored e.body e'.body
  emitted : (∀ j ∈ e.emitted, j ∈ e.body.instructions) → ∀ j ∈ e'.emitted, j ∈ e'.body.instructions

theorem Writes.refl (e : Emitter) : Writes i stored e e := ⟨.refl, id⟩

theorem Writes.trans (h : Writes i stored e e') (h' : Writes i stored e' e'') :
    Writes i stored e e'' :=
  ⟨h.changes.trans h'.changes, fun hj => h'.emitted (h.emitted hj)⟩

/-- A change of the body that emits nothing. -/
theorem writes_of_change (h : Change i stored e.body e'.body) (hemitted : e'.emitted = e.emitted) :
    Writes i stored e e' :=
  ⟨.single h, fun hj j hmem => h.retains.mem_instructions j (hj j (hemitted ▸ hmem))⟩

theorem writes_place (hj : j ∈ e.body.instructions) : Writes i stored e (e.place j) := by
  refine ⟨.refl, fun hemitted l hl => ?_⟩
  rcases List.mem_append.1 hl with hl | hl
  · exact hemitted l hl
  · rw [List.mem_singleton.1 hl]
    exact hj

theorem writes_emit {insn : Instruction} (hinputs : ∀ v ∈ insn.inputs, v ∈ e.body.values)
    (houtput : ∀ v, insn.output = some v →
      v ∈ e.body.values ∧ ((e.body.value v).isStack = true ∨ insn.operation = .store ∧ stored v))
    (hblock : insn.block ∈ e.body.blocks) : Writes i stored e (e.emit insn) := by
  have hpushed : Writes i stored e { e with body := (e.body.pushInstruction insn).2 } :=
    writes_of_change (.push hinputs houtput hblock) rfl
  exact hpushed.trans (writes_place ((mem_instructions_pushInstruction e.body insn).2 (Or.inr rfl)))

theorem writes_store (line : Option UInt32) {entry v : ValueId} {k : BlockId}
    (hentry : entry ∈ e.body.values) (hv : v ∈ e.body.values) (hstored : stored v)
    (hk : k ∈ e.body.blocks) : Writes i stored e (e.emit ⟨.store, [entry], some v, k, line⟩) := by
  refine writes_emit (fun u hu => List.mem_singleton.1 hu ▸ hentry) (fun u hu => ?_) hk
  rw [← Option.some.inj hu]
  exact ⟨hv, Or.inr ⟨rfl, hstored⟩⟩

/-- A new stack entry is there, and on the stack. -/
theorem writes_pushEntry (i : InsnId) (stored : ValueId → Prop) (e : Emitter) (v : ValueId)
    (type : StackType ClassId) :
    Writes i stored e (e.pushEntry v type).2 ∧
      (e.pushEntry v type).1 ∈ (e.pushEntry v type).2.body.values ∧
      ((e.pushEntry v type).2.body.value (e.pushEntry v type).1).isStack = true := by
  refine ⟨writes_of_change (.entry ..) rfl, Table.mem_push.2 (Or.inr rfl), ?_⟩
  have hvalue : (e.pushEntry v type).2.body.value (e.pushEntry v type).1 = _ :=
    (value_pushValue e.body _ _).trans (if_pos rfl)
  rw [hvalue]
  rfl

end Emitter

/-- A phi is stored from a stack entry. -/
theorem PhiMoves.store_writes {e : Emitter} {i : InsnId} {stored : ValueId → Prop} {k : BlockId}
    (line : Option UInt32) {x : PhiMove × ValueId} (hentry : x.2 ∈ e.body.values)
    (hphi : x.1.phi ∈ e.body.values) (hstored : stored x.1.phi) (hk : k ∈ e.body.blocks) :
    Emitter.Writes i stored e (store k line e x) := by
  have hwrites : Emitter.Writes i stored e.popEntry
      (e.popEntry.emit ⟨.store, [x.2], some x.1.phi, k, line⟩) :=
    Emitter.writes_store line hentry hphi hstored hk
  exact ⟨hwrites.changes, hwrites.emitted⟩

namespace StackCoding

open Body Emitter

variable {c : StackCoding} {b b' b'' : Body} {e e' : Emitter} {i : InsnId} {v : ValueId}
  {k : BlockId} {stored : ValueId → Prop}

/-- A value that is there can be pushed. -/
theorem pushOperand_writes (c : StackCoding) (i : InsnId) (stored : ValueId → Prop)
    (line : Option UInt32) (hv : v ∈ e.body.values) (hk : k ∈ e.body.blocks) :
    Writes i stored e (c.pushOperand k line e v).2 ∧
      (c.pushOperand k line e v).1 ∈ (c.pushOperand k line e v).2.body.values := by
  obtain ⟨hpushed, hentry, hstack⟩ := writes_pushEntry i stored e v (c.stackType e.body v)
  have hv' := hpushed.changes.retains.mem_values v hv
  have hk' := (hpushed.changes.retains.mem_blocks k).2 hk
  unfold pushOperand
  generalize e.pushEntry v (c.stackType e.body v) = pushed at hpushed hentry hstack hv' hk'
  obtain ⟨entry, p⟩ := pushed
  simp only at hpushed hentry hstack hv' hk' ⊢
  have hemit : ∀ event insn, (∀ u ∈ insn.inputs, u = v) → insn.output = some entry →
      insn.block = k → Writes i stored e ((p.report event).emit insn) ∧
      entry ∈ ((p.report event).emit insn).body.values := by
    intro event insn hinputs houtput hblock
    have hwrites : Writes i stored (p.report event) ((p.report event).emit insn) := by
      refine writes_emit (fun u hu => hinputs u hu ▸ hv') (fun u hu => ?_) (hblock ▸ hk')
      rw [← Option.some.inj (houtput.symm.trans hu)]
      exact ⟨hentry, Or.inl hstack⟩
    exact ⟨hpushed.trans ⟨hwrites.changes, hwrites.emitted⟩,
      hwrites.changes.retains.mem_values entry hentry⟩
  split
  · exact hemit _ _ (by simp) rfl rfl
  · exact hemit _ _ (by simp) rfl rfl

theorem loadInput_total (c : StackCoding) (stored : ValueId → Prop) (line : Option UInt32) (n : Nat)
    (hv : v ∈ e.body.values) (hstack : (e.body.value v).isStack = false)
    (hi : i ∈ e.body.instructions) (hk : k ∈ e.body.blocks) :
    ∃ e', c.loadInput k i line e (v, n) = (e', none) ∧ Writes i stored e e' := by
  obtain ⟨hpushed, hentry⟩ := pushOperand_writes c i stored line hv hk
  have hloads := c.loads k i line e v n
  generalize c.loadInput k i line e (v, n) = outcome at hloads ⊢
  cases hloads with
  | refused onStack => simp [hstack] at onStack
  | pushed free =>
    refine ⟨_, rfl, hpushed.trans (writes_of_change ?_ rfl)⟩
    exact .input (hpushed.changes.retains.mem_instructions i hi) hentry

/-- Values that are not on the stack can be pushed one after the other. -/
theorem loadInputs_total (c : StackCoding) (stored : ValueId → Prop) (line : Option UInt32)
    {inputs : List (ValueId × Nat)}
    (hinputs : ∀ x ∈ inputs, x.1 ∈ e.body.values ∧ (e.body.value x.1).isStack = false)
    (hi : i ∈ e.body.instructions) (hk : k ∈ e.body.blocks) :
    ∃ e', attemptAll (c.loadInput k i line) e inputs = (e', none) ∧ Writes i stored e e' := by
  refine attemptAll_total (P := fun inputs e' =>
    (∀ x ∈ inputs, x.1 ∈ e.body.values ∧ (e.body.value x.1).isStack = false) ∧ Writes i stored e e')
    (fun x rest e' h => ?_) ⟨hinputs, Writes.refl e⟩ |>.imp fun _ h => ⟨h.1, h.2.2⟩
  obtain ⟨hrest, hwrites⟩ := h
  obtain ⟨hx, hrest⟩ := List.forall_mem_cons.1 hrest
  have hr := hwrites.changes.retains
  obtain ⟨e'', he'', hwrites'⟩ :=
    loadInput_total c stored line x.2 (hr.mem_values _ hx.1) (hr.isStack hx.2)
      (hr.mem_instructions i hi) ((hr.mem_blocks k).2 hk)
  exact ⟨e'', he'', hrest, hwrites.trans hwrites'⟩

theorem placeOutput_writes (stored : ValueId → Prop) (v : ValueId) (type : StackType ClassId)
    (hi : i ∈ e.body.instructions) :
    Writes i stored e (placeOutput e i v type) ∧
      e.body.values.next ∈ (placeOutput e i v type).body.values := by
  obtain ⟨hpushed, hentry, hstack⟩ := writes_pushEntry i stored e v type
  have hchange : Change i stored (e.pushEntry v type).2.body _ :=
    .output (hpushed.changes.retains.mem_instructions i hi) hentry hstack
  have hreplaced : Writes i stored e { (e.pushEntry v type).2 with
      body := (e.pushEntry v type).2.body.replaceOutput i (e.pushEntry v type).1 } :=
    hpushed.trans (writes_of_change hchange rfl)
  refine ⟨hreplaced.trans (writes_place (hreplaced.changes.retains.mem_instructions i hi)), ?_⟩
  exact hchange.retains.mem_values _ hentry

/-- The output of an instruction can be stored, and it is if a phi reads it. -/
theorem storeOutput_writes (c : StackCoding) (stored : ValueId → Prop) (line : Option UInt32)
    (hstored : stored v) (hv : v ∈ e.body.values) (hi : i ∈ e.body.instructions)
    (hk : k ∈ e.body.blocks) :
    Writes i stored e (c.storeOutput k i line e v) ∧
      ((∃ p, p ∈ (e.body.value v).users.phis) → (∃ j, (e.body.value v).origin = .instruction j) →
        (c.storeOutput k i line e v).body.IsStored v) := by
  obtain ⟨hplaced, hentry⟩ := placeOutput_writes stored v (c.stackType e.body v) hi
  have hunfold := storeOutput_eq c k i line e v
  generalize placeOutput e i v (c.stackType e.body v) = placed at hplaced hentry hunfold
  have hr := hplaced.changes.retains
  have hk' := (hr.mem_blocks k).2 hk
  rw [hunfold]
  split
  · rename_i hempty
    have hpop : Writes i stored placed (placed.emit ⟨.pop, [e.body.values.next], none, k, line⟩) :=
      writes_emit (fun u hu => List.mem_singleton.1 hu ▸ hentry) (fun u hu => by simp at hu) hk'
    refine ⟨hplaced.trans ⟨hpop.changes, hpop.emitted⟩, fun hphi _ => absurd hempty ?_⟩
    rw [Users.isEmpty_iff, Classical.not_not]
    exact Or.inr (hplaced.changes.phiReaders v ▸ hphi)
  · have hstore :
        Writes i stored placed (placed.emit ⟨.store, [e.body.values.next], some v, k, line⟩) :=
      writes_store line hentry (hr.mem_values v hv) hstored hk'
    refine ⟨hplaced.trans ⟨hstore.changes, hstore.emitted⟩, fun _ hmade => ?_⟩
    obtain ⟨j, hj⟩ := hmade
    obtain ⟨j', hj'⟩ := hr.exists_maker hj
    exact isStored_pushInstruction hj' rfl rfl

/-! ### Converting the instructions -/

/-- A constant that is pushed where it is used. -/
def IsPushed (c : StackCoding) (b : Body) (i : InsnId) : Prop :=
  (b.instruction i).operation.isConstant = true ∧ c.settings.rematerialize = true

/-- Some instructions of a body have been converted. The others are as they were. Constants that are
pushed where they are used are still made where they were, and the others are stored if a phi reads
them. -/
structure Halfway (c : StackCoding) (b : Body) (converted : InsnId → Prop) (b' : Body) : Prop where
  retains : b.Retains b'
  closed : b'.Closed
  phiReaders : ∀ v, (b'.value v).users.phis = (b.value v).users.phis
  instruction : ∀ i ∈ b.instructions, ¬ converted i → b'.instruction i = b.instruction i
  pushed : ∀ v i, (b.value v).origin = .instruction i → IsPushed c b i →
    (b'.value v).origin = .instruction i
  stored : ∀ v i, (b.value v).origin = .instruction i → converted i →
    (b.instruction i).operation.isConstant = true →
    ¬ IsPushed c b i → (∃ p, p ∈ (b.value v).users.phis) → b'.IsStored v

variable {converted converted' : InsnId → Prop}

theorem halfway_start (hb : b.WellFormed) (c : StackCoding) : Halfway c b (fun _ => False) b :=
  ⟨.refl b, hb.closed, fun _ => rfl, fun _ _ _ => rfl, fun _ _ ho _ => ho, fun _ _ _ h => h.elim⟩

theorem Halfway.congr (h : Halfway c b converted b')
    (hiff : ∀ i ∈ b.instructions, converted i ↔ converted' i) (hb : b.WellFormed) :
    Halfway c b converted' b' := by
  refine ⟨h.retains, h.closed, h.phiReaders,
    fun i hi hnot => h.instruction i hi (mt (hiff i hi).1 hnot), h.pushed, fun v i ho hconverted =>
    h.stored v i ho ((hiff i (hb.output_of_origin v i ho).1).2 hconverted)⟩

/-- What is done for an instruction leaves the others as they are. -/
theorem Halfway.changes (h : Halfway c b converted b') (hc : Changes i stored b' b'')
    (hpushed : ∀ v j, (b.value v).origin = .instruction j → IsPushed c b j → ¬ stored v)
    (hstored : ∀ v, (b.value v).origin = .instruction i →
      (b.instruction i).operation.isConstant = true → ¬ IsPushed c b i →
      (∃ p, p ∈ (b.value v).users.phis) → b''.IsStored v) :
        Halfway c b (fun j => converted j ∨ j = i) b'' := by
  refine ⟨h.retains.trans hc.retains, hc.closed h.closed,
    fun v => (hc.phiReaders v).trans (h.phiReaders v), fun j hj hnot => ?_, fun v j ho hp => ?_,
    fun v j ho hconverted hconstant hp hread => ?_⟩
  · obtain ⟨hnot, hne⟩ := not_or.1 hnot
    exact (hc.instruction (h.retains.mem_instructions j hj) hne).trans (h.instruction j hj hnot)
  · have ho' := h.pushed v j ho hp
    exact (hc.origin (hpushed v j ho hp) (by simp [ho'])).trans ho'
  · rcases hconverted with hconverted | rfl
    · exact hc.retains.isStored (h.stored v j ho hconverted hconstant hp hread)
    · exact hstored v ho hconstant hp hread

/-- No value of the body is on the stack, on the way either. -/
theorem Halfway.isStack (hb : b.WellFormed) (h : Halfway c b converted b') (hv : v ∈ b.values) :
    (b'.value v).isStack = false :=
  h.retains.isStack (isStack_eq_false hb hv)

theorem Halfway.inputs (hb : b.WellFormed) (h : Halfway c b converted b') :
    ∀ x ∈ (b.instruction i).inputs.zipIdx, x.1 ∈ b'.values ∧ (b'.value x.1).isStack = false := by
  intro x hx
  have hx' := List.mem_map_of_mem (f := Prod.fst) hx
  rw [List.zipIdx_map_fst] at hx'
  have hmem := hb.inputs_mem i x.1 hx'
  exact ⟨h.retains.mem_values _ hmem, h.isStack hb hmem⟩

theorem isDropped_iff (hb : b.WellFormed) (hr : b.Retains b') :
    c.isDropped b' (b.instruction i) = true ↔ IsPushed c b i := by
  have hany : (b.instruction i).output.any (fun v => (b'.value v).isStack) = false := by
    cases hout : (b.instruction i).output with
    | none => rfl
    | some v => exact hr.isStack (isStack_eq_false hb (hb.origin_of_output i v hout).1)
  rw [isDropped, hany, Bool.or_false, Bool.and_eq_true, IsPushed]

/-- An instruction that has not been converted can be. -/
theorem convert_total (hb : b.WellFormed) (h : Halfway c b converted e.body)
    (hi : i ∈ b.instructions) (hnot : ¬ converted i) (hk : k ∈ b.blocks) :
    ∃ e', c.convert k e i = (e', none) ∧
      Writes i (fun v => (b.instruction i).output = some v) e e' ∧
      Halfway c b (fun j => converted j ∨ j = i) e'.body := by
  have hi' := h.retains.mem_instructions i hi
  have hk' := (h.retains.mem_blocks k).2 hk
  have hdropped := isDropped_iff (c := c) (i := i) hb h.retains
  -- only the output of the instruction is stored, and that is no constant that is pushed
  have hunpushed : ¬ IsPushed c b i → ∀ v j, (b.value v).origin = .instruction j → IsPushed c b j →
      ¬ (b.instruction i).output = some v := by
    intro hp v j ho hj hout
    obtain rfl := hb.output_inj (hb.output_of_origin v j ho).2 hout
    exact hp hj
  obtain ⟨loaded, hloaded, hwrites⟩ :=
    loadInputs_total c (fun v => (b.instruction i).output = some v) (b.instruction i).line
      (h.inputs (i := i) hb) hi' hk'
  have hr := hwrites.changes.retains
  obtain ⟨stack, hpopped⟩ := popEntries_eq loaded (b.instruction i).inputs
  have hwrites' : Writes i (fun v => (b.instruction i).output = some v) e { loaded with stack } :=
    ⟨hwrites.changes, hwrites.emitted⟩
  have hconverts := c.converts k e i
  rw [h.instruction i hi hnot] at hconverts
  generalize c.convert k e i = outcome at hconverts ⊢
  cases hconverts with
  | argument harg =>
    refine ⟨_, rfl, writes_place hi', h.changes .refl (fun _ _ _ _ => id) fun v _ hconstant => ?_⟩
    cases hop : (b.instruction i).operation <;>
      simp [hop, Operation.isArgument, Operation.isConstant] at harg hconstant
  | dropped _ hd =>
    refine ⟨_, rfl, ⟨.refl, id⟩, h.changes .refl (fun _ _ _ _ => id) fun v _ _ hp => ?_⟩
    exact absurd (hdropped.1 hd) hp
  | refused _ _ hrefused => simp [hloaded] at hrefused
  | effect _ hd hloaded' hout =>
    obtain rfl := congrArg Prod.fst (hloaded.symm.trans hloaded')
    have hp : ¬ IsPushed c b i := mt hdropped.2 (Bool.eq_false_iff.1 hd)
    have hplaced := hwrites'.trans (writes_place (hr.mem_instructions i hi'))
    rw [hpopped]
    refine ⟨_, rfl, hplaced, h.changes hplaced.changes (hunpushed hp) fun v ho => ?_⟩
    exact absurd ((hb.output_of_origin v i ho).2.symm.trans hout) (by simp)
  | misplaced _ _ hloaded' hout onStack =>
    obtain rfl := congrArg Prod.fst (hloaded.symm.trans hloaded')
    rw [hpopped] at onStack
    exact absurd onStack
      (Bool.eq_false_iff.1 (hr.isStack (h.isStack hb (hb.origin_of_output i _ hout).1)))
  | @result _ v _ hd hloaded' hout =>
    obtain rfl := congrArg Prod.fst (hloaded.symm.trans hloaded')
    have hp : ¬ IsPushed c b i := mt hdropped.2 (Bool.eq_false_iff.1 hd)
    obtain ⟨hstores, hisStored⟩ := storeOutput_writes (e := { loaded with stack }) (k := k) c
      (fun v => (b.instruction i).output = some v) (b.instruction i).line hout
      (hr.mem_values v (h.retains.mem_values v (hb.origin_of_output i v hout).1))
      (hr.mem_instructions i hi') ((hr.mem_blocks k).2 hk')
    have hall := hwrites'.trans hstores
    rw [hpopped]
    refine ⟨_, rfl, hall, h.changes hall.changes (hunpushed hp) fun w ho _ _ hread => ?_⟩
    obtain rfl : w = v := Option.some.inj ((hb.output_of_origin w i ho).2.symm.trans hout)
    refine hisStored ?_ ((h.retains.trans hr).exists_maker ho)
    show ∃ p, p ∈ (loaded.body.value w).users.phis
    rwa [hwrites.changes.phiReaders, h.phiReaders]

/-! ### Converting the blocks -/

/-- Instructions that have not been converted can be, one after the other. -/
theorem convertAll_total (hb : b.WellFormed) (hk : k ∈ b.blocks) {is : List InsnId}
    (hnodup : is.Nodup) (his : ∀ i ∈ is, i ∈ b.instructions ∧ ¬ converted i)
    (h : Halfway c b converted e.body) (hemitted : ∀ j ∈ e.emitted, j ∈ e.body.instructions) :
    ∃ e', attemptAll (c.convert k) e is = (e', none) ∧
      Halfway c b (fun j => converted j ∨ j ∈ is) e'.body ∧
      (∀ j ∈ e'.emitted, j ∈ e'.body.instructions) ∧ ∀ l,
        (e'.body.block l).instructions = (e.body.block l).instructions := by
  induction is generalizing e converted with
  | nil => exact ⟨e, rfl, h.congr (fun j _ => by simp) hb, hemitted, fun _ => rfl⟩
  | cons i is ih =>
    obtain ⟨hi, hnot⟩ := his i List.mem_cons_self
    obtain ⟨hiis, hnodup'⟩ := List.nodup_cons.1 hnodup
    obtain ⟨e₁, he₁, hwrites, h₁⟩ := convert_total hb h hi hnot hk
    have his' : ∀ j ∈ is, j ∈ b.instructions ∧ ¬ (converted j ∨ j = i) := by
      intro j hj
      obtain ⟨hjb, hj'⟩ := his j (List.mem_cons_of_mem i hj)
      refine ⟨hjb, not_or.2 ⟨hj', ?_⟩⟩
      rintro rfl
      exact hiis hj
    obtain ⟨e₂, he₂, h₂, hemitted₂, hlists⟩ := ih hnodup' his' h₁ (hwrites.emitted hemitted)
    refine ⟨e₂, ?_, h₂.congr (fun j _ => ?_) hb, hemitted₂,
      fun l => (hlists l).trans (hwrites.changes.instructions l)⟩
    · rw [attemptAll, he₁]
      exact he₂
    · rw [List.mem_cons, or_assoc]

/-- Blocks that are still to be converted hold the instructions that they held. -/
structure Remaining (c : StackCoding) (b : Body) (pending : List BlockId) (b' : Body) : Prop where
  nodup : pending.Nodup
  mem_blocks : ∀ k ∈ pending, k ∈ b.blocks
  halfway : Halfway c b (fun i => (b.instruction i).block ∉ pending) b'
  instructions : ∀ k ∈ pending, (b'.block k).instructions = (b.block k).instructions

theorem Halfway.setInstructions (h : Halfway c b converted b') (hk : k ∈ b'.blocks)
    {is : List InsnId} (his : ∀ j ∈ is, j ∈ b'.instructions) :
    Halfway c b converted (b'.setInstructions k is) :=
  ⟨h.retains.trans (retains_setInstructions hk is), h.closed.setInstructions hk his, h.phiReaders,
    h.instruction, h.pushed,
    fun v i ho hconverted hconstant hp hread =>
      (retains_setInstructions hk is).isStored (h.stored v i ho hconverted hconstant hp hread)⟩

theorem remaining_start (hb : b.WellFormed) (c : StackCoding) :
    Remaining c b b.blocks.indices b := by
  refine ⟨Table.nodup_indices _, fun k hk => Table.mem_indices.1 hk,
    (halfway_start hb c).congr (fun i hi => ?_) hb, fun _ _ => rfl⟩
  simp [hb.closed.place i hi]

/-- A block whose instructions have been taken out to be converted, none of which has been. -/
theorem Remaining.takeOut (hb : b.WellFormed) {ks : List BlockId} (h : Remaining c b (k :: ks) b') :
    Halfway c b (fun i => (b.instruction i).block ∉ k :: ks) (b'.setInstructions k []) ∧
      ∀ i ∈ (b.block k).instructions, i ∈ b.instructions ∧ ¬ (b.instruction i).block ∉ k :: ks := by
  have hk := (h.halfway.retains.mem_blocks k).2 (h.mem_blocks k List.mem_cons_self)
  refine ⟨h.halfway.setInstructions hk fun _ hj => absurd hj List.not_mem_nil, fun i hi => ?_⟩
  obtain ⟨hib, hik⟩ := (hb.mem_instructions k i).1 hi
  exact ⟨hib, by simp [hik]⟩

theorem convertBlock_total (hb : b.WellFormed) {ks : List BlockId} {m : Lowering}
    (h : Remaining c b (k :: ks) m.body) :
    ∃ m', c.convertBlock m k = (m', none) ∧ Remaining c b ks m'.body := by
  obtain ⟨hk, hnodup⟩ := List.nodup_cons.1 h.nodup
  obtain ⟨hkb, hksb⟩ := List.forall_mem_cons.1 h.mem_blocks
  have hkm : k ∈ m.body.blocks := (h.halfway.retains.mem_blocks k).2 hkb
  -- the block is emptied, and all that was in it can be converted
  obtain ⟨hstart, his⟩ := h.takeOut hb
  obtain ⟨e, he, hhalfway, hemitted, hlists⟩ :=
    convertAll_total (e := { m with body := m.body.setInstructions k [] }) hb hkb
      (hb.instructions_nodup k) his hstart (fun _ hj => absurd hj List.not_mem_nil)
  have hke : k ∈ e.body.blocks := (hhalfway.retains.mem_blocks k).2 hkb
  have hconverts := c.convertsBlock m k
  rw [← h.instructions k List.mem_cons_self] at he
  generalize c.convertBlock m k = outcome at hconverts ⊢
  obtain hrefused | he' := hconverts
  · simp [he] at hrefused
  obtain rfl := congrArg Prod.fst (he.symm.trans he')
  refine ⟨_, rfl, hnodup, hksb, (hhalfway.setInstructions hke hemitted).congr (fun i hi => ?_) hb,
    fun l hl => ?_⟩
  -- what has been converted is what is in no block still to come
  · rw [hb.mem_instructions]
    by_cases hik : (b.instruction i).block = k
    · simp [hik, hi, hk]
    · simp [hik]
  · have hlk : l ≠ k := fun h => hk (h ▸ hl)
    simp only
    rw [block_setInstructions _ hke]
    simp only [if_neg hlk, hlists l]
    rw [block_setInstructions _ hkm]
    simp only [if_neg hlk]
    exact h.instructions l (List.mem_cons_of_mem k hl)

/-- **Stack code can be written for every body that is built.** -/
theorem insertLoadsAndStores_total (hb : b.WellFormed) (c : StackCoding) :
    ∃ m, c.insertLoadsAndStores { body := b } = (m, none) ∧ Halfway c b (fun _ => True) m.body := by
  obtain ⟨m, hm, hend⟩ := attemptAll_total (P := fun ks (m : Lowering) => Remaining c b ks m.body)
    (fun k ks m h => convertBlock_total hb h) (s := { body := b }) (remaining_start hb c)
  unfold insertLoadsAndStores
  rw [hm]
  exact ⟨_, rfl, hend.halfway.congr (fun i _ => by simp) hb⟩

theorem insertLoadsAndStores_halfway (hb : b.WellFormed) {m : Lowering}
    (hrun : c.insertLoadsAndStores { body := b } = (m, none)) :
    Halfway c b (fun _ => True) m.body := by
  obtain ⟨m', hm', hhalfway⟩ := insertLoadsAndStores_total hb c
  obtain rfl := congrArg Prod.fst (hm'.symm.trans hrun)
  exact hhalfway

end StackCoding

end JvmLowering
