import JvmLowering.Proofs.Lowering.Definitions
import JvmLowering.Proofs.Lowering.StoredValues

/-!
# Code in single-definition form

Stack code redirects outputs to new stack entries, makes them again by stores, drops the definitions
of constants and stores into phis on each edge. Still each value that is no phi is made by one
instruction that stands in a block, and all that is read there is made there. What is wanted on the
way is followed through each step: a value that anything reads is a phi, or made by an instruction
that stands in the code, or a constant that is pushed where it is used.

* `Body.SingleDefinition`: the form;
* `StackCoding.Consistent`: what holds of the code on the way, with the instructions that stand in
  it so far;
* `StackCoding.Emitting`, `StackCoding.Tidy`: the same while a block is written, and between blocks;
* `Body.toStackCode_singleDefinition`: stack code is in this form, and so is what it is written for.
-/

namespace JvmLowering

/-! ### The form -/

namespace Body

variable {b f : Body} {v : ValueId} {i : InsnId}

/-- Each instruction stands at one place at most, in its own block. Outputs that are no phis are
made there and nowhere else, and so is all that is read and is no phi. Blocks with instructions that
can throw are marked. -/
structure SingleDefinition (b : Body) : Prop where
  nodup : b.placed.Nodup
  block : ∀ k, ∀ i ∈ (b.block k).instructions, (b.instruction i).block = k
  definition : ∀ i ∈ b.placed, ∀ v, (b.instruction i).output = some v → (b.value v).isPhi = false →
    (b.value v).definition? = some i
  reads : ∀ i ∈ b.placed, (b.instruction i).operation.isArgument = false →
    ∀ v ∈ (b.instruction i).inputs,
    (b.value v).isPhi = false → ∃ j ∈ b.placed, (b.instruction j).output = some v
  throwing : ∀ k, ∀ i ∈ (b.block k).instructions, b.canThrow i = true → (b.block k).throwing = true

/-- An instruction stands in a block. -/
def Stands (b : Body) (k : BlockId) (i : InsnId) : Prop := i ∈ (b.block k).instructions

/-- A value can be read: it is a phi, or an instruction that stands in some block makes it. -/
def Supplied (b : Body) (P : BlockId → InsnId → Prop) (v : ValueId) : Prop :=
  (b.value v).isPhi = true ∨ ∃ k i, P k i ∧ (b.instruction i).output = some v

theorem Supplied.mem_values {P : BlockId → InsnId → Prop} (hc : b.Closed) (h : b.Supplied P v) :
    v ∈ b.values := by
  rcases h with hphi | ⟨k, i, -, hout⟩
  · exact mem_values_of_isPhi hphi
  · exact hc.mem_of_output hout

/-- What is supplied by the blocks is a phi, or made by an instruction that is placed. -/
theorem Supplied.exists_placed (h : b.Supplied b.Stands v) (hphi : (b.value v).isPhi = false) :
    ∃ i ∈ b.placed, (b.instruction i).output = some v := by
  rcases h with hphi' | ⟨k, i, hi, hout⟩
  · exact absurd (hphi.symm.trans hphi') (by simp)
  · refine ⟨i, mem_placed.2 ⟨k, Classical.byContradiction fun hk => ?_, hi⟩, hout⟩
    rw [Stands, block_of_notMem hk] at hi
    exact List.not_mem_nil hi

/-- All values of a body that is built are supplied. -/
theorem WellFormed.supplied (hb : b.WellFormed) (hv : v ∈ b.values) : b.Supplied b.Stands v := by
  cases ho : (b.value v).origin with
  | instruction i =>
    obtain ⟨hi, hout⟩ := hb.output_of_origin v i ho
    exact Or.inr ⟨_, i, (hb.mem_instructions _ i).2 ⟨hi, rfl⟩, hout⟩
  | phi l operands => exact Or.inl (by simp [Value.isPhi, ho])
  | stack slot definition => exact absurd ho (hb.not_stack v hv slot definition)

theorem Built.singleDefinition (hb : b.Built) : b.SingleDefinition := by
  have hw := hb.wellFormed
  exact ⟨hw.nodup_placed (Table.nodup_indices _), fun k i hi => ((hw.mem_instructions k i).1 hi).2,
    fun i _ => hb.coherent.defined i, fun i _ _ v hv hphi =>
    (hw.supplied (hw.inputs_mem i v hv)).exists_placed hphi,
    fun k i hi hthrows => (hb.throwing_iff k).2 ⟨i, hi, hthrows⟩⟩

theorem ReadersKnown.reading_iff (h : f.ReadersKnown) : (f.value v).users.Reading ↔
    (∃ i, v ∈ (f.instruction i).inputs) ∨ ∃ p, p ∈ (f.value v).users.phis :=
  or_congr_left (exists_congr fun i => h v i)

end Body

namespace StackCoding

open Body Emitter

variable {c : StackCoding} {b f f' : Body} {e e' e'' : Emitter} {i j : InsnId} {v w entry : ValueId}
  {k l : BlockId} {pending pending' : InsnId → Prop} {P P' Q Q' : BlockId → InsnId → Prop}

/-! ### Code on the way -/

/-- A constant whose definition is dropped, since it is pushed where it is used. -/
def Repushed (c : StackCoding) (b : Body) (v : ValueId) : Prop :=
  ∃ i, (b.value v).origin = .instruction i ∧ IsPushed c b i

theorem Repushed.mem_values (h : Repushed c b v) : v ∈ b.values := by
  obtain ⟨i, ho, -⟩ := h
  exact mem_values_of_origin (by simp [ho])

/-- Code on the way from a body to stack code, where some instructions are still to be converted.
The others read only what is supplied. All that anything reads is supplied, apart from constants
that are pushed where they are used. -/
structure Consistent (c : StackCoding) (b : Body) (pending : InsnId → Prop)
    (P : BlockId → InsnId → Prop) (f : Body) : Prop where
  retains : b.Retains f
  coherent : f.Coherent
  pushed : ∀ v i, (b.value v).origin = .instruction i → IsPushed c b i →
    (f.value v).origin = .instruction i
  mem : ∀ l j, P l j → j ∈ f.instructions ∧ (f.instruction j).block = l
  read : ∀ l j, P l j → ¬ pending j → (f.instruction j).operation.isArgument = false →
    ∀ v ∈ (f.instruction j).inputs, Supplied f P v ∧ ¬ Repushed c b v
  wanted : ∀ v, (f.value v).users.Reading → Supplied f P v ∨ Repushed c b v

/-- A step keeps code consistent if it keeps supplied what is read and is not pushed as a constant,
and all that it adds reads what is supplied. -/
theorem Consistent.step (h : Consistent c b pending P f) (hretains : f.Retains f')
    (hcoherent : f'.Coherent)
    (hpushed : ∀ v, Repushed c b v → (f'.value v).origin = (f.value v).origin)
    (hmem : ∀ l j, P' l j → j ∈ f'.instructions ∧ (f'.instruction j).block = l)
    (hsupplied : ∀ v, (f.value v).users.Reading → ¬ Repushed c b v → Supplied f P v →
      Supplied f' P' v)
    (hread : ∀ l j, P' l j → ¬ pending' j → (f'.instruction j).operation.isArgument = false →
      (P l j ∧ ¬ pending j ∧ f'.instruction j = f.instruction j) ∨
        ∀ v ∈ (f'.instruction j).inputs, Supplied f' P' v ∧ ¬ Repushed c b v)
    (hwanted : ∀ v, (f'.value v).users.Reading → (f.value v).users.Reading ∨ Supplied f' P' v) :
    Consistent c b pending' P' f' := by
  refine ⟨h.retains.trans hretains, hcoherent, fun v i ho hp => (hpushed v ⟨i, ho, hp⟩).trans
    (h.pushed v i ho hp), hmem, fun l j hj hnot harg v hv => ?_, fun v hv => ?_⟩
  · rcases hread l j hj hnot harg with ⟨hold, hnot', hsame⟩ | hinputs
    · rw [hsame] at harg hv
      obtain ⟨hsup, hrep⟩ := h.read l j hold hnot' harg v hv
      exact ⟨hsupplied v (Or.inl ⟨j, (h.coherent.readers v j).2 hv⟩) hrep hsup, hrep⟩
    · exact hinputs v hv
  · by_cases hrep : Repushed c b v
    · exact Or.inr hrep
    · rcases hwanted v hv with hold | hsup
      · exact Or.inl (hsupplied v hold hrep ((h.wanted v hold).resolve_right hrep))
      · exact Or.inl hsup

/-- The same for changes of the body, where all that an instruction reads was read before or is
supplied. -/
theorem Consistent.changes {stored : ValueId → Prop} (h : Consistent c b pending P f)
    (hchanges : Changes i stored f f') (hstored : ∀ v, stored v → ¬ Repushed c b v)
    (hcoherent : f'.Coherent)
    (hmem : ∀ l j, P' l j → j ∈ f'.instructions ∧ (f'.instruction j).block = l)
    (hsupplied : ∀ v, (f.value v).users.Reading → ¬ Repushed c b v → Supplied f P v →
      Supplied f' P' v)
    (hread : ∀ l j, P' l j → ¬ pending' j → (f'.instruction j).operation.isArgument = false →
      (P l j ∧ ¬ pending j ∧ f'.instruction j = f.instruction j) ∨
        ∀ v ∈ (f'.instruction j).inputs, Supplied f' P' v ∧ ¬ Repushed c b v)
    (hinputs : ∀ j, ∀ v ∈ (f'.instruction j).inputs, (∃ j, v ∈ (f.instruction j).inputs) ∨
      Supplied f' P' v) :
    Consistent c b pending' P' f' := by
  refine h.step hchanges.retains hcoherent (fun v hv => ?_) hmem hsupplied hread fun v hv => ?_
  · obtain ⟨i, ho, hp⟩ := hv
    exact hchanges.origin (fun hs => hstored v hs ⟨i, ho, hp⟩) (by simp [h.pushed v i ho hp])
  · rw [hcoherent.readers.reading_iff, hchanges.phiReaders] at hv
    rw [h.coherent.readers.reading_iff]
    rcases hv with ⟨j, hj⟩ | hphi
    · exact (hinputs j v hj).imp_left Or.inl
    · exact Or.inl (Or.inr hphi)

theorem Consistent.congr (h : Consistent c b pending P f) (hpending : ∀ j, pending j → pending' j)
    (hP : ∀ l j, P l j ↔ P' l j) :
    Consistent c b pending' P' f := by
  obtain rfl : P = P' := funext fun l => funext fun j => propext (hP l j)
  exact ⟨h.retains, h.coherent, h.pushed, h.mem,
    fun l j hj hnot => h.read l j hj (mt (hpending j) hnot), h.wanted⟩

/-- What is not pushed as a constant has not lost its definition. -/
theorem Consistent.not_repushed (hb : b.WellFormed) (h : Consistent c b pending P f)
    (hnone : c.constant? f v = none) :
    ¬ Repushed c b v := by
  rintro ⟨i, ho, hconstant, hrematerialize⟩
  have hop := h.retains.operation i (hb.output_of_origin v i ho).1
  rw [constant?_eq_none_iff (h.pushed v i ho ⟨hconstant, hrematerialize⟩), hop, hconstant,
    hrematerialize] at hnone
  simp at hnone

/-! ### While a block is written -/

/-- The instructions that stand in the code while a block is written: those of the block so far, and
others. -/
def code (e : Emitter) (k : BlockId) (Q : BlockId → InsnId → Prop) (l : BlockId)
    (j : InsnId) : Prop :=
  (l = k ∧ j ∈ e.emitted) ∨ Q l j

/-- Code is consistent while a block is written, and nothing stands in it twice. -/
structure Emitting (c : StackCoding) (b : Body) (k : BlockId) (pending : InsnId → Prop)
    (Q : BlockId → InsnId → Prop) (e : Emitter) :
    Prop where
  consistent : Consistent c b pending (code e k Q) e.body
  nodup : e.emitted.Nodup
  apart : ∀ j ∈ e.emitted, ∀ l, ¬ Q l j

theorem Emitting.congr (h : Emitting c b k pending Q e) (hpending : ∀ j, pending j → pending' j)
    (hQ : ∀ l j, Q l j ↔ Q' l j) :
    Emitting c b k pending' Q' e := by
  obtain rfl : Q = Q' := funext fun l => funext fun j => propext (hQ l j)
  exact ⟨h.consistent.congr hpending fun _ _ => Iff.rfl, h.nodup, h.apart⟩

theorem Emitting.next_notMem (h : Emitting c b k pending Q e) :
    ¬ code e k Q l e.body.instructions.next :=
  fun hnext => Table.next_notMem _ (h.consistent.mem l _ hnext).1

/-- Instructions may be written that are new, or still to be put into the block. -/
theorem Emitting.nodup_append (h : Emitting c b k pending Q e) {added : List InsnId}
    (hadded : added.Nodup) (hnew : ∀ j ∈ added, Q k j ∨ ¬ code e k Q k j) :
    (e.emitted ++ added).Nodup := by
  refine List.nodup_append.2 ⟨h.nodup, hadded, ?_⟩
  rintro j hj _ hj' rfl
  rcases hnew j hj' with hQ | hnot
  · exact h.apart j hj k hQ
  · exact hnot (Or.inl ⟨rfl, hj⟩)

/-- More code has been written for a block, and what was supplied still is. -/
structure Extends (c : StackCoding) (b : Body) (k : BlockId) (pending : InsnId → Prop)
    (Q : BlockId → InsnId → Prop) (e e' : Emitter) :
    Prop where
  emitting : Emitting c b k pending Q e'
  supplied : ∀ u, Supplied e.body (code e k Q) u → Supplied e'.body (code e' k Q) u
  instructions : ∀ l, (e'.body.block l).instructions = (e.body.block l).instructions

theorem Extends.trans (h : Extends c b k pending Q e e') (h' : Extends c b k pending Q e' e'') :
    Extends c b k pending Q e e'' :=
  ⟨h'.emitting, fun u hu => h'.supplied u (h.supplied u hu),
    fun l => (h'.instructions l).trans (h.instructions l)⟩

/-- An instruction that is added reads what is supplied. -/
theorem Emitting.emit {insn : Instruction} {stored : ValueId → Prop}
    (h : Emitting c b k pending Q e)
    (hchanges : Changes e.body.instructions.next stored e.body e'.body)
    (hstored : ∀ v, stored v → ¬ Repushed c b v) (hcoherent : e'.body.Coherent)
    (hnext : e.body.instructions.next ∈ e'.body.instructions)
    (hinstruction : ∀ j, e'.body.instruction j = if j = e.body.instructions.next then insn
      else e.body.instruction j) (hemitted : e'.emitted = e.emitted ++ [e.body.instructions.next])
    (hblock : insn.block = k)
    (hinputs : ∀ u ∈ insn.inputs, Supplied e.body (code e k Q) u ∧ ¬ Repushed c b u) :
    Extends c b k pending Q e e' := by
  have hr := hchanges.retains
  have hold : ∀ l j, code e k Q l j → e'.body.instruction j = e.body.instruction j := by
    intro l j hj
    rw [hinstruction, if_neg]
    rintro rfl
    exact h.next_notMem hj
  -- the new instruction is emitted at the end of the block, and nothing else changes
  have hcode : ∀ l j, code e' k Q l j ↔ code e k Q l j ∨ l = k ∧ j = e.body.instructions.next := by
    intro l j
    simp only [code, hemitted, List.mem_append, List.mem_singleton]
    grind
  have hsupplied : ∀ u, Supplied e.body (code e k Q) u → Supplied e'.body (code e' k Q) u := by
    rintro u (hphi | ⟨l, j, hj, hout⟩)
    · exact Or.inl (hr.isPhi hphi)
    · exact Or.inr ⟨l, j, (hcode l j).2 (Or.inl hj), by rw [hold l j hj, hout]⟩
  refine ⟨⟨h.consistent.changes hchanges hstored hcoherent (fun l j hj => ?_)
    (fun u _ _ => hsupplied u) (fun l j hj hnot _ => ?_) fun j u hu => ?_, ?_, ?_⟩, hsupplied,
    hchanges.instructions⟩
  -- code is in its block
  · rcases (hcode l j).1 hj with hj | ⟨rfl, rfl⟩
    · rw [hold l j hj]
      exact ⟨hr.mem_instructions j (h.consistent.mem l j hj).1, (h.consistent.mem l j hj).2⟩
    · rw [hinstruction, if_pos rfl]
      exact ⟨hnext, hblock⟩
  -- what code reads is supplied
  · rcases (hcode l j).1 hj with hj | ⟨-, rfl⟩
    · exact Or.inl ⟨hj, hnot, hold l j hj⟩
    · right
      rw [hinstruction, if_pos rfl]
      exact fun u hu => ⟨hsupplied u (hinputs u hu).1, (hinputs u hu).2⟩
  · rw [hinstruction] at hu
    split at hu
    · exact Or.inr (hsupplied u (hinputs u hu).1)
    · exact Or.inl ⟨j, hu⟩
  · rw [hemitted]
    exact h.nodup_append (List.nodup_singleton _)
      (List.forall_mem_singleton.2 (Or.inr h.next_notMem))
  · rw [hemitted]
    exact List.forall_mem_append.2
      ⟨h.apart, List.forall_mem_singleton.2 fun l hQ => h.next_notMem (Or.inr hQ)⟩

/-- A value that is read can be pushed. -/
theorem Emitting.pushOperand (hb : b.WellFormed) (h : Emitting c b k pending Q e)
    (line : Option UInt32) (hv : v ∈ e.body.values) (hk : k ∈ e.body.blocks)
    (hread : (e.body.value v).users.Reading) :
    ∃ entry e', c.pushOperand k line e v = (entry, e') ∧
      Changes e.body.instructions.next (fun _ => False) e.body e'.body ∧
      Extends c b k pending Q e e' ∧ Supplied e'.body (code e' k Q) entry ∧
        ¬ Repushed c b entry := by
  have hcoherent := pushOperand_coherent c line h.consistent.coherent hv hk
  obtain ⟨hwrites, -⟩ := pushOperand_writes c e.body.instructions.next (fun _ => False) line hv hk
  obtain ⟨event, heq⟩ := pushOperand_eq c k line hv
  rw [heq] at hcoherent hwrites ⊢
  simp only at hcoherent hwrites
  have hinstruction :
      ∀ j, (((e.pushEntry v (c.stackType e.body v)).2.report event).emit
      (c.pushing e.body k line v e.body.values.next)).body.instruction j = if j =
      e.body.instructions.next then c.pushing e.body k line v e.body.values.next
      else e.body.instruction j :=
    fun j => instruction_pushInstruction ..
  have hinputs : ∀ u ∈ (c.pushing e.body k line v e.body.values.next).inputs,
      Supplied e.body (code e k Q) u ∧ ¬ Repushed c b u := by
    intro u hu
    obtain ⟨rfl, hnone⟩ := mem_inputs_pushing hu
    have hrep := h.consistent.not_repushed hb hnone
    exact ⟨(h.consistent.wanted u hread).resolve_right hrep, hrep⟩
  have hextends :=
    h.emit hwrites.changes (fun _ hs => hs.elim) hcoherent
      ((mem_instructions_pushInstruction ..).2 (Or.inr rfl)) hinstruction rfl
      (block_pushing ..) hinputs
  refine ⟨_, _, rfl, hwrites.changes, hextends,
    Or.inr ⟨k, e.body.instructions.next, Or.inl ⟨rfl, ?_⟩, ?_⟩, fun hrep => ?_⟩
  · exact List.mem_append_right _ (List.mem_singleton_self _)
  · rw [hinstruction, if_pos rfl, output_pushing]
  · exact Table.next_notMem _ (h.consistent.retains.mem_values _ hrep.mem_values)

/-- An input of an instruction that is being converted may be replaced by what is supplied. -/
theorem Emitting.replaceInput (h : Emitting c b k pending Q e) (n : Nat)
    (hi : i ∈ e.body.instructions) (hpending : pending i) (hsup : Supplied e.body (code e k Q) w) :
    Extends c b k pending Q e { e with body := e.body.replaceInput i n w } := by
  have hw := hsup.mem_values h.consistent.coherent.closed
  have hchanges : Changes i (fun _ => False) e.body (e.body.replaceInput i n w) :=
    .single (.input hi hw)
  have hinstruction := fun j => instruction_replaceInput j n w hi
  -- only the inputs of one instruction change, and it is still pending
  have hsame : ∀ j, ((e.body.replaceInput i n w).instruction j).output =
      (e.body.instruction j).output ∧ ((e.body.replaceInput i n w).instruction j).block =
      (e.body.instruction j).block := by
    intro j
    rw [hinstruction]
    split
    · rename_i hji
      rw [hji]
      exact ⟨rfl, rfl⟩
    · exact ⟨rfl, rfl⟩
  have hsupplied : ∀ u, Supplied e.body (code e k Q) u →
      Supplied (e.body.replaceInput i n w) (code e k Q) u := by
    rintro u (hphi | ⟨l, j, hj, hout⟩)
    · exact Or.inl (hchanges.retains.isPhi hphi)
    · exact Or.inr ⟨l, j, hj, (hsame j).1.trans hout⟩
  refine ⟨⟨h.consistent.changes hchanges (fun _ hs => hs.elim)
    (h.consistent.coherent.replaceInput n hi hw) (fun l j hj => ?_) (fun u _ _ => hsupplied u)
    (fun l j hj hnot _ => Or.inl ⟨hj, hnot, ?_⟩) fun j u hu => ?_, h.nodup, h.apart⟩, hsupplied,
    hchanges.instructions⟩
  · obtain ⟨hmem, hblock⟩ := h.consistent.mem l j hj
    exact ⟨(mem_instructions_replaceInput ..).2 hmem, (hsame j).2.trans hblock⟩
  · rw [hinstruction, if_neg]
    rintro rfl
    exact hnot hpending
  · rw [hinstruction] at hu
    split at hu
    · rcases List.mem_or_eq_of_mem_set hu with hu | rfl
      · exact Or.inl ⟨i, hu⟩
      · exact Or.inr (hsupplied u hsup)
    · exact Or.inl ⟨j, hu⟩

/-- An instruction is placed when its inputs are supplied; an argument is placed as it is. -/
theorem Emitting.place (h : Emitting c b k pending Q e) (hi : Q k i)
    (hinputs : (e.body.instruction i).operation.isArgument = false →
      ∀ u ∈ (e.body.instruction i).inputs, Supplied e.body (code e k Q) u ∧ ¬ Repushed c b u) :
    Emitting c b k (fun j => pending j ∧ j ≠ i) (fun l j => Q l j ∧ j ≠ i) (e.place i) := by
  have hblock : ∀ l, Q l i → l = k := fun l hl =>
    (h.consistent.mem l i (Or.inr hl)).2.symm.trans (h.consistent.mem k i (Or.inr hi)).2
  have hcode : code e k Q = code (e.place i) k fun l j => Q l j ∧ j ≠ i := by
    funext l j
    simp only [code, Emitter.place, List.mem_append, List.mem_singleton]
    grind
  refine ⟨?_, h.nodup_append (List.nodup_singleton i) (List.forall_mem_singleton.2 (Or.inl hi)),
    fun j hj l hQ => ?_⟩
  · rw [← hcode]
    refine h.consistent.step (.refl _) h.consistent.coherent (fun _ _ => rfl) h.consistent.mem
      (fun _ _ _ hs => hs) (fun l j hj hnot harg => ?_) fun _ hu => Or.inl hu
    by_cases hji : j = i
    · subst hji
      exact Or.inr (hinputs harg)
    · exact Or.inl ⟨hj, fun hp => hnot ⟨hp, hji⟩, rfl⟩
  · rcases List.mem_append.1 hj with hj | hj
    · exact h.apart j hj l hQ.1
    · exact hQ.2 (List.mem_singleton.1 hj)

/-- The definition of a constant may be dropped if the constant is pushed where it is used. -/
theorem Emitting.drop (h : Emitting c b k pending Q e) (hi : Q k i)
    (hout : ∀ v, (e.body.instruction i).output = some v → Repushed c b v) :
    Emitting c b k (fun j => pending j ∧ j ≠ i) (fun l j => Q l j ∧ j ≠ i) e := by
  have hcode : ∀ l j, code e k (fun l j => Q l j ∧ j ≠ i) l j ↔ code e k Q l j ∧ j ≠ i := by
    intro l j
    have hne : j ∈ e.emitted → j ≠ i := by
      rintro hj rfl
      exact h.apart j hj k hi
    simp only [code]
    grind
  refine ⟨h.consistent.step (.refl _) h.consistent.coherent (fun _ _ => rfl) (fun l j hj => ?_)
    (fun u _ hrep hs => ?_) (fun l j hj hnot _ => ?_) fun _ hu => Or.inl hu, h.nodup,
    fun j hj l hQ => h.apart j hj l hQ.1⟩
  · exact h.consistent.mem l j ((hcode l j).1 hj).1
  · rcases hs with hphi | ⟨l, j, hj, hu⟩
    · exact Or.inl hphi
    · refine Or.inr ⟨l, j, (hcode l j).2 ⟨hj, ?_⟩, hu⟩
      rintro rfl
      exact hrep (hout u hu)
  · obtain ⟨hj, hji⟩ := (hcode l j).1 hj
    exact Or.inl ⟨hj, fun hp => hnot ⟨hp, hji⟩, rfl⟩

/-- One instruction is added to the code when an output is stored. -/
theorem Emitting.code_storeOutput (h : Emitting c b k pending Q e) (line : Option UInt32)
    (hi : Q k i) (hv : v ∈ e.body.values) :
    code (c.storeOutput k i line e v) k (fun l j => Q l j ∧ j ≠ i) l j ↔ code e k Q l j ∨ l = k ∧
      j = e.body.instructions.next := by
  obtain ⟨-, -, hemitted⟩ := storeOutput_body (e := e) c k i line hv
  have hblock : ∀ l, Q l i → l = k := fun l hl =>
    (h.consistent.mem l i (Or.inr hl)).2.symm.trans (h.consistent.mem k i (Or.inr hi)).2
  simp only [code, hemitted, List.mem_append, List.mem_cons, List.not_mem_nil, or_false]
  grind

/-- The stack entry is supplied by the instruction, and its output by the store. There is one if
anything reads the output. -/
theorem Emitting.supplied_storeOutput (h : Emitting c b k pending Q e) (line : Option UInt32)
    (hi : Q k i) (hout : (e.body.instruction i).output = some v) (hk : k ∈ e.body.blocks) :
    Supplied (c.storeOutput k i line e v).body
      (code (c.storeOutput k i line e v) k fun l j => Q l j ∧ j ≠ i) e.body.values.next ∧
      ∀ u, (e.body.value u).users.Reading → Supplied e.body (code e k Q) u →
        Supplied (c.storeOutput k i line e v).body
          (code (c.storeOutput k i line e v) k fun l j => Q l j ∧ j ≠ i) u := by
  have himem := (h.consistent.mem k i (Or.inr hi)).1
  have hv := h.consistent.coherent.closed.mem_of_output hout
  have hr := (storeOutput_writes c (fun u => u = v) line rfl hv himem hk).1.changes.retains
  have hinstruction := instruction_storeOutput c k line hv himem
  refine ⟨Or.inr ⟨k, i, (h.code_storeOutput line hi hv).2 (Or.inl (Or.inr hi)), ?_⟩, ?_⟩
  · rw [hinstruction, if_neg fun heq => h.next_notMem (Or.inr (heq ▸ hi)), if_pos rfl]
  · rintro u hread (hphi | ⟨l, j, hj, hu⟩)
    · exact Or.inl (hr.isPhi hphi)
    · by_cases hji : j = i
      · -- the instruction no longer makes its output, so it has to be the store
        subst hji
        obtain rfl : v = u := Option.some.inj (hout.symm.trans hu)
        refine Or.inr ⟨k, _, (h.code_storeOutput line hi hv).2 (Or.inr ⟨rfl, rfl⟩), ?_⟩
        rw [hinstruction, if_pos rfl, output_taking hread]
      · refine Or.inr ⟨l, j, (h.code_storeOutput line hi hv).2 (Or.inl hj), ?_⟩
        rw [hinstruction, if_neg fun heq => h.next_notMem (heq ▸ hj), if_neg hji, hu]

/-- All other code stays as it is. -/
theorem Emitting.instruction_storeOutput_of_ne (h : Emitting c b k pending Q e)
    (line : Option UInt32) (hv : v ∈ e.body.values) (himem : i ∈ e.body.instructions)
    (hj : code e k Q l j) (hji : j ≠ i) :
    (c.storeOutput k i line e v).body.instruction j = e.body.instruction j := by
  rw [instruction_storeOutput c k line hv himem, if_neg fun heq => h.next_notMem (heq ▸ hj),
    if_neg hji]

/-- Code is in its block: the instruction stays where it was, and the store comes to it. -/
theorem Emitting.mem_storeOutput (h : Emitting c b k pending Q e) (line : Option UInt32)
    (hi : Q k i) (hv : v ∈ e.body.values) (hk : k ∈ e.body.blocks)
    (hj : code (c.storeOutput k i line e v) k (fun l j => Q l j ∧ j ≠ i) l j) :
    j ∈ (c.storeOutput k i line e v).body.instructions ∧
      ((c.storeOutput k i line e v).body.instruction j).block = l := by
  have himem := (h.consistent.mem k i (Or.inr hi)).1
  have hine : i ≠ e.body.instructions.next := fun heq => Table.next_notMem _ (heq ▸ himem)
  have hr := (storeOutput_writes c (fun u => u = v) line rfl hv himem hk).1.changes.retains
  have hinstruction := instruction_storeOutput c k line hv himem
  rcases (h.code_storeOutput line hi hv).1 hj with hj | ⟨rfl, rfl⟩
  · obtain ⟨hmem, hjblock⟩ := h.consistent.mem l j hj
    refine ⟨hr.mem_instructions j hmem, ?_⟩
    by_cases hji : j = i
    · rw [hji, hinstruction, if_neg hine, if_pos rfl]
      exact hji ▸ hjblock
    · rw [h.instruction_storeOutput_of_ne line hv himem hj hji, hjblock]
  · rw [hinstruction, if_pos rfl, block_taking]
    exact ⟨(mem_instructions_storeOutput (i := i) c l line hv).2 (Or.inr rfl), rfl⟩

/-- What code reads is supplied: the instruction reads what was loaded, and the store the entry. -/
theorem Emitting.read_storeOutput (h : Emitting c b k pending Q e) (line : Option UInt32)
    (hi : Q k i) (hout : (e.body.instruction i).output = some v) (hk : k ∈ e.body.blocks)
    (hinputs : ∀ u ∈ (e.body.instruction i).inputs, Supplied e.body (code e k Q) u ∧
      ¬ Repushed c b u)
    (hj : code (c.storeOutput k i line e v) k (fun l j => Q l j ∧ j ≠ i) l j)
    (hnot : ¬ (pending j ∧ j ≠ i)) :
    (code e k Q l j ∧ ¬ pending j ∧
        (c.storeOutput k i line e v).body.instruction j = e.body.instruction j) ∨
      ∀ u ∈ ((c.storeOutput k i line e v).body.instruction j).inputs,
        Supplied (c.storeOutput k i line e v).body
          (code (c.storeOutput k i line e v) k fun l j => Q l j ∧ j ≠ i) u ∧ ¬ Repushed c b u := by
  have himem := (h.consistent.mem k i (Or.inr hi)).1
  have hine : i ≠ e.body.instructions.next := fun heq => Table.next_notMem _ (heq ▸ himem)
  have hv := h.consistent.coherent.closed.mem_of_output hout
  have hinstruction := instruction_storeOutput c k line hv himem
  obtain ⟨hentry, hsupplied⟩ := h.supplied_storeOutput line hi hout hk
  rcases (h.code_storeOutput line hi hv).1 hj with hj | ⟨-, rfl⟩
  · by_cases hji : j = i
    · subst hji
      right
      rw [hinstruction, if_neg hine, if_pos rfl]
      intro u hu
      have hread : (e.body.value u).users.Reading :=
        Or.inl ⟨j, (h.consistent.coherent.readers u j).2 hu⟩
      exact ⟨hsupplied u hread (hinputs u hu).1, (hinputs u hu).2⟩
    · exact Or.inl ⟨hj, fun hp => hnot ⟨hp, hji⟩,
        h.instruction_storeOutput_of_ne line hv himem hj hji⟩
  · right
    rw [hinstruction, if_pos rfl]
    intro u hu
    rw [mem_inputs_taking hu]
    -- the new entry is no value of the body, so no constant is pushed in its place
    exact ⟨hentry, fun hrep =>
      Table.next_notMem _ (h.consistent.retains.mem_values _ hrep.mem_values)⟩

/-- An output may be left on the stack and stored from there. -/
theorem Emitting.storeOutput (h : Emitting c b k pending Q e) (line : Option UInt32) (hi : Q k i)
    (hout : (e.body.instruction i).output = some v) (hphi : (e.body.value v).isPhi = false)
    (hrep : ¬ Repushed c b v) (hk : k ∈ e.body.blocks)
    (hinputs : ∀ u ∈ (e.body.instruction i).inputs, Supplied e.body (code e k Q) u ∧
      ¬ Repushed c b u) :
    Emitting c b k (fun j => pending j ∧ j ≠ i) (fun l j => Q l j ∧ j ≠ i)
      (c.storeOutput k i line e v) := by
  have himem := (h.consistent.mem k i (Or.inr hi)).1
  have hine : i ≠ e.body.instructions.next := fun heq => Table.next_notMem _ (heq ▸ himem)
  have hv := h.consistent.coherent.closed.mem_of_output hout
  have hcoherent := storeOutput_coherent c line h.consistent.coherent himem hout hphi hk
  have hchanges := (storeOutput_writes c (fun u => u = v) line rfl hv himem hk).1.changes
  obtain ⟨-, -, hemitted⟩ := storeOutput_body (e := e) c k i line hv
  obtain ⟨hentry, hsupplied⟩ := h.supplied_storeOutput line hi hout hk
  refine ⟨h.consistent.changes hchanges (fun u hu => hu ▸ hrep) hcoherent
    (fun l j hj => h.mem_storeOutput line hi hv hk hj) (fun u hread _ => hsupplied u hread)
    (fun l j hj hnot _ => h.read_storeOutput line hi hout hk hinputs hj hnot) fun j u hu => ?_, ?_,
    fun j hj l hQ => ?_⟩
  -- only the new entry was not read before
  · rw [instruction_storeOutput c k line hv himem] at hu
    split at hu
    · rw [mem_inputs_taking hu]
      exact Or.inr hentry
    · split at hu
      · exact Or.inl ⟨i, hu⟩
      · exact Or.inl ⟨j, hu⟩
  -- nothing is emitted twice
  · rw [hemitted]
    refine h.nodup_append (by simp [hine]) fun j hj => ?_
    rcases List.mem_pair.1 hj with rfl | rfl
    · exact Or.inl hi
    · exact Or.inr h.next_notMem
  · rw [hemitted, List.mem_append, List.mem_pair] at hj
    rcases hj with hj | rfl | rfl
    · exact h.apart j hj l hQ.1
    · exact hQ.2 rfl
    · exact h.next_notMem (Or.inr hQ.1)

/-! ### Converting the instructions -/

/-- The inputs of an instruction are pushed one after the other. Those that are left stand at their
positions, and what has been pushed is supplied. -/
structure Loading (c : StackCoding) (b : Body) (k : BlockId) (pending : InsnId → Prop)
    (Q : BlockId → InsnId → Prop) (i : InsnId) (left : List (ValueId × Nat)) (e : Emitter) :
    Prop where
  emitting : Emitting c b k pending Q e
  output : (e.body.instruction i).output = (b.instruction i).output
  nodup : (left.map Prod.snd).Nodup
  input : ∀ x ∈ left, x.1 ∈ b.values ∧ (e.body.instruction i).inputs[x.2]? = some x.1
  pushed : ∀ u n, (e.body.instruction i).inputs[n]? = some u →
    (u, n) ∈ left ∨ Supplied e.body (code e k Q) u ∧ ¬ Repushed c b u

theorem loading_start (hb : b.WellFormed) (h : Emitting c b k pending Q e)
    (hinsn : e.body.instruction i = b.instruction i) :
    Loading c b k pending Q i (b.instruction i).inputs.zipIdx e := by
  refine ⟨h, by rw [hinsn], ?_, fun x hx => ?_, fun u n hu => Or.inl ?_⟩
  · rw [List.zipIdx_map_snd]
    exact List.nodup_range'
  · rw [List.mem_zipIdx_iff_getElem?] at hx
    rw [hinsn]
    exact ⟨hb.inputs_mem i x.1 (List.mem_of_getElem? hx), hx⟩
  · rw [hinsn] at hu
    exact List.mem_zipIdx_iff_getElem?.2 hu

theorem Loading.loadInput (hb : b.WellFormed) (hk : k ∈ b.blocks) (hi : Q k i)
    (hpending : pending i) (line : Option UInt32) {x : ValueId × Nat} {left : List (ValueId × Nat)}
    (h : Loading c b k pending Q i (x :: left) e) :
    ∃ e', c.loadInput k i line e x = (e', none) ∧ Loading c b k pending Q i left e' := by
  obtain ⟨v, n⟩ := x
  have hr := h.emitting.consistent.retains
  have himem := (h.emitting.consistent.mem k i (Or.inr hi)).1
  obtain ⟨⟨hv, hn⟩, hleft⟩ := List.forall_mem_cons.1 h.input
  obtain ⟨hfresh, hnodup⟩ := List.nodup_cons.1 h.nodup
  have hread : (e.body.value v).users.Reading :=
    Or.inl ⟨i, (h.emitting.consistent.coherent.readers v i).2 (List.mem_of_getElem? hn)⟩
  obtain ⟨entry, e₁, he₁, hchanges, hpushed, hsup, hrep⟩ :=
    h.emitting.pushOperand hb line (hr.mem_values v hv) ((hr.mem_blocks k).2 hk) hread
  have himem₁ := hchanges.retains.mem_instructions i himem
  -- the instruction is not changed before its input is replaced
  have hsame : e₁.body.instruction i = e.body.instruction i :=
    hchanges.instruction himem fun heq => Table.next_notMem _ (heq ▸ himem)
  have hreplaced := hpushed.emitting.replaceInput n himem₁ hpending hsup
  have hinstruction : (e₁.body.replaceInput i n entry).instruction i =
      { e.body.instruction i with inputs := (e.body.instruction i).inputs.set n entry } := by
    rw [instruction_replaceInput _ _ _ himem₁, if_pos rfl, hsame]
  have hloads := c.loads k i line e v n
  generalize c.loadInput k i line e (v, n) = outcome at hloads ⊢
  obtain hrefused | _ := hloads
  · simp [hr.isStack (isStack_eq_false hb hv)] at hrefused
  rw [he₁]
  refine ⟨_, rfl, hreplaced.emitting, ?_, hnodup, fun x hx => ?_, fun u m hu => ?_⟩
  · rw [hinstruction]
    exact h.output
  -- inputs still to be loaded stand at other positions
  · have hmem := List.mem_map_of_mem (f := Prod.snd) hx
    have hne : n ≠ x.2 := fun heq => hfresh (heq ▸ hmem)
    rw [hinstruction]
    exact ⟨(hleft x hx).1, (List.getElem?_set_ne hne).trans (hleft x hx).2⟩
  -- the input that is replaced is the new entry; the others are as before
  · rw [hinstruction] at hu
    simp only [List.getElem?_set] at hu
    split at hu
    · split at hu
      · rw [← Option.some.inj hu]
        exact Or.inr ⟨hreplaced.supplied entry hsup, hrep⟩
      · simp at hu
    · rename_i hne
      rcases h.pushed u m hu with hmem | ⟨hold, hrep⟩
      · refine Or.inl ((List.mem_cons.1 hmem).resolve_left fun heq => hne ?_)
        exact (Prod.mk.inj heq).2.symm
      · exact Or.inr ⟨(hpushed.trans hreplaced).supplied u hold, hrep⟩

/-- An instruction that is as it was can be converted. -/
theorem Emitting.convert (hb : b.WellFormed) (h : Emitting c b k pending Q e) (hk : k ∈ b.blocks)
    (hi : Q k i) (hpending : pending i) (hinsn : e.body.instruction i = b.instruction i) :
    ∃ e', c.convert k e i = (e', none) ∧ Emitting c b k (fun j => pending j ∧ j ≠ i)
      (fun l j => Q l j ∧ j ≠ i) e' := by
  have hdropped := isDropped_iff (c := c) (i := i) hb h.consistent.retains
  -- all inputs are loaded, so that the instruction reads only what is supplied
  obtain ⟨loaded, hloaded, hend⟩ :=
    attemptAll_total (fun x left e h => h.loadInput hb hk hi hpending (b.instruction i).line)
      (loading_start hb h hinsn)
  have hinputs : ∀ u ∈ (loaded.body.instruction i).inputs,
      Supplied loaded.body (code loaded k Q) u ∧ ¬ Repushed c b u := by
    intro u hu
    obtain ⟨n, hn⟩ := List.mem_iff_getElem?.1 hu
    exact (hend.pushed u n hn).resolve_left List.not_mem_nil
  obtain ⟨stack, hpopped⟩ := popEntries_eq loaded (b.instruction i).inputs
  have hemitting : Emitting c b k pending Q { loaded with stack } :=
    ⟨hend.emitting.consistent, hend.emitting.nodup, hend.emitting.apart⟩
  have hr := hend.emitting.consistent.retains
  -- by what becomes of the instruction
  have hconverts := c.converts k e i
  rw [hinsn] at hconverts
  generalize c.convert k e i = outcome at hconverts ⊢
  cases hconverts with
  | argument isArgument =>
    refine ⟨_, rfl, h.place hi fun hnot => ?_⟩
    rw [hinsn, isArgument] at hnot
    exact absurd hnot (by simp)
  | dropped _ isDropped =>
    have hnone := h.drop hi fun v hv =>
      ⟨i, (hb.origin_of_output i v (hinsn ▸ hv)).2, hdropped.1 isDropped⟩
    exact ⟨_, rfl, hnone.consistent, hnone.nodup, hnone.apart⟩
  | refused _ _ hrefused => simp [hloaded] at hrefused
  | effect _ _ hloaded' _ =>
    obtain rfl := congrArg Prod.fst (hloaded.symm.trans hloaded')
    rw [hpopped]
    exact ⟨_, rfl, hemitting.place hi fun _ => hinputs⟩
  | misplaced _ _ hloaded' output onStack =>
    obtain rfl := congrArg Prod.fst (hloaded.symm.trans hloaded')
    rw [hpopped] at onStack
    have hv := (hb.origin_of_output i _ output).1
    exact absurd onStack (Bool.eq_false_iff.1 (hr.isStack (isStack_eq_false hb hv)))
  | @result _ v _ isDropped hloaded' output =>
    obtain rfl := congrArg Prod.fst (hloaded.symm.trans hloaded')
    obtain ⟨hv, horigin⟩ := hb.origin_of_output i v output
    obtain ⟨j, hj⟩ := hr.exists_maker horigin
    rw [hpopped]
    refine ⟨_, rfl, hemitting.storeOutput _ hi (hend.output.trans output)
      (by simp [Value.isPhi, hj]) ?_ ((hr.mem_blocks k).2 hk) hinputs⟩
    rintro ⟨i', ho, hp⟩
    obtain rfl := Origin.instruction.inj (horigin.symm.trans ho)
    exact Bool.eq_false_iff.1 isDropped (hdropped.2 hp)

theorem Emitting.convertAll (hb : b.WellFormed) (hk : k ∈ b.blocks) {converted : InsnId → Prop}
    {is : List InsnId} (hnodup : is.Nodup) (his : ∀ i ∈ is, i ∈ b.instructions ∧ ¬ converted i)
    (hhalfway : Halfway c b converted e.body) (h : Emitting c b k pending Q e)
    (hpending : ∀ i ∈ is, Q k i ∧ pending i) (hrun : attemptAll (c.convert k) e is = (e', none)) :
    Emitting c b k (fun j => pending j ∧ j ∉ is) (fun l j => Q l j ∧ j ∉ is) e' := by
  induction is generalizing e converted pending Q with
  | nil =>
    obtain rfl : e = e' := (Prod.mk.inj hrun).1
    exact h.congr (fun j hj => ⟨hj, List.not_mem_nil⟩) fun l j =>
      (and_iff_left List.not_mem_nil).symm
  | cons i is ih =>
    obtain ⟨⟨hi, hnot⟩, his⟩ := List.forall_mem_cons.1 his
    obtain ⟨⟨hQ, hp⟩, hpending⟩ := List.forall_mem_cons.1 hpending
    obtain ⟨hiis, hnodup⟩ := List.nodup_cons.1 hnodup
    have hne : ∀ j ∈ is, j ≠ i := fun j hj heq => hiis (heq ▸ hj)
    obtain ⟨e₁, he₁, -, hhalfway₁⟩ := convert_total hb hhalfway hi hnot hk
    obtain ⟨e₂, he₂, h₂⟩ := h.convert hb hk hQ hp (hhalfway.instruction i hi hnot)
    obtain rfl : e₁ = e₂ := (Prod.mk.inj (he₁.symm.trans he₂)).1
    rw [attemptAll, he₁] at hrun
    have hall := ih hnodup (fun j hj => ⟨(his j hj).1, not_or.2 ⟨(his j hj).2, hne j hj⟩⟩) hhalfway₁
      h₂ (fun j hj => ⟨⟨(hpending j hj).1, hne j hj⟩, (hpending j hj).2, hne j hj⟩) hrun
    exact hall.congr (fun j hj => ⟨hj.1.1, by simp [hj.1.2, hj.2]⟩) fun l j => by simp [and_assoc]

/-! ### Between blocks -/

/-- Code is consistent with the instructions that stand in the blocks, and none stands in a block
twice. -/
structure Tidy (c : StackCoding) (b : Body) (pending : InsnId → Prop) (f : Body) : Prop where
  consistent : Consistent c b pending f.Stands f
  nodup : ∀ l, (f.block l).instructions.Nodup

theorem Tidy.congr (h : Tidy c b pending f) (hpending : ∀ j, pending j → pending' j) :
    Tidy c b pending' f :=
  ⟨h.consistent.congr hpending fun _ _ => Iff.rfl, h.nodup⟩

theorem Tidy.singleDefinition (h : Tidy c b (fun _ => False) f) : f.SingleDefinition := by
  have hblock : ∀ k, ∀ i ∈ (f.block k).instructions, (f.instruction i).block = k :=
    fun k i hi => (h.consistent.mem k i hi).2
  refine ⟨nodup_flatMap_instructions (Table.nodup_indices _) h.nodup hblock, hblock,
    fun i _ => h.consistent.coherent.defined i, fun i hi harg v hv => ?_, fun k i hi hthrows => ?_⟩
  · obtain ⟨k, -, hi⟩ := mem_placed.1 hi
    exact (h.consistent.read k i hi id harg v hv).1.exists_placed
  · exact hblock k i hi ▸ h.consistent.coherent.marked i (h.consistent.mem k i hi).1 hthrows

theorem Consistent.setInstructions (h : Consistent c b pending P f) (hk : k ∈ f.blocks)
    {is : List InsnId} (his : ∀ j ∈ is, j ∈ f.instructions) :
    Consistent c b pending P (f.setInstructions k is) :=
  ⟨h.retains.trans (retains_setInstructions hk is), h.coherent.setInstructions hk his, h.pushed,
    h.mem, h.read, h.wanted⟩

/-- The instructions that stand in other blocks, and some that are still to be put into this one. -/
def others (f : Body) (k : BlockId) (left : List InsnId) (l : BlockId) (j : InsnId) : Prop :=
  (l = k ∧ j ∈ left) ∨ (l ≠ k ∧ f.Stands l j)

/-- A block may be written anew from any point on. -/
theorem Tidy.emitting (h : Tidy c b pending f) {left : List InsnId}
    (hlist : (f.block k).instructions = e.emitted ++ left)
    (hconsistent : Consistent c b pending f.Stands e.body) :
    Emitting c b k pending (others f k left) e := by
  have hnodup := h.nodup k
  rw [hlist, List.nodup_append] at hnodup
  refine ⟨hconsistent.congr (fun _ => id) fun l j => ?_, hnodup.1, fun j hj l hQ => ?_⟩
  · by_cases hl : l = k
    · subst hl
      simp [code, others, Stands, hlist]
    · simp [code, others, hl]
  · rcases hQ with ⟨-, hleft⟩ | ⟨hl, hlists⟩
    · exact hnodup.2.2 j hj j hleft rfl
    · have hjk : f.Stands k j := by
        rw [Stands, hlist]
        exact List.mem_append_left _ hj
      exact hl ((h.consistent.mem l j hlists).2.symm.trans (h.consistent.mem k j hjk).2)

/-- What has been written is put into its block, before what is left. -/
theorem Emitting.tidy {left : List InsnId} (h : Emitting c b k pending (others e.body k left) e)
    (hk : k ∈ e.body.blocks) (hleft : left.Nodup)
    (hnodup : ∀ l, l ≠ k → (e.body.block l).instructions.Nodup) :
    Tidy c b pending (e.body.setInstructions k (e.emitted ++ left)) := by
  have hlists : ∀ l, ((e.body.setInstructions k (e.emitted ++ left)).block l).instructions =
      if l = k then e.emitted ++ left else (e.body.block l).instructions := by
    intro l
    rw [block_setInstructions _ hk]
  have hmem : ∀ j ∈ e.emitted ++ left, code e k (others e.body k left) k j := by
    intro j hj
    exact (List.mem_append.1 hj).imp (fun hj => ⟨rfl, hj⟩) fun hj => Or.inl ⟨rfl, hj⟩
  refine ⟨(h.consistent.setInstructions hk fun j hj => (h.consistent.mem k j (hmem j hj)).1).congr
    (fun _ => id) fun l j => ?_, fun l => ?_⟩
  · rw [Stands, hlists]
    by_cases hl : l = k <;> simp [code, others, hl, Stands]
  · rw [hlists]
    split
    · refine List.nodup_append.2 ⟨h.nodup, hleft, ?_⟩
      rintro j hj _ hj' rfl
      exact h.apart j hj k (Or.inl ⟨rfl, hj'⟩)
    · exact hnodup l ‹_›

theorem tidy_start (hb : b.Built) (c : StackCoding) :
    Tidy c b (fun i => i ∈ b.instructions ∧ (b.instruction i).block ∈ b.blocks.indices) b := by
  have hw := hb.wellFormed
  refine ⟨⟨.refl b, hb.coherent, fun _ _ ho _ => ho, fun k i hi => (hw.mem_instructions k i).1 hi,
    fun k i hi hnot => ?_, fun v hv => Or.inl (hw.supplied ?_)⟩, hw.instructions_nodup⟩
  · have himem := ((hw.mem_instructions k i).1 hi).1
    exact absurd ⟨himem, Table.mem_indices.2 (hw.closed.place i himem)⟩ hnot
  · refine mem_values_of_read (Bool.eq_false_iff.2 fun hempty => ?_)
    exact Users.isEmpty_iff.1 hempty hv

theorem Tidy.convertBlock (hb : b.WellFormed) {ks : List BlockId} {m m' : Lowering}
    (hremaining : Remaining c b (k :: ks) m.body)
    (h : Tidy c b (fun i => i ∈ b.instructions ∧ (b.instruction i).block ∈ k :: ks) m.body)
    (hrun : c.convertBlock m k = (m', none)) :
    Tidy c b (fun i => i ∈ b.instructions ∧ (b.instruction i).block ∈ ks) m'.body := by
  have hkb := hremaining.mem_blocks k List.mem_cons_self
  have hk := (h.consistent.retains.mem_blocks k).2 hkb
  have hlist := hremaining.instructions k List.mem_cons_self
  -- the instructions of the block are taken out, and converted one after the other
  obtain ⟨hstart, his⟩ := hremaining.takeOut hb
  obtain ⟨e, he, -, -, hlists⟩ :=
    convertAll_total (e := { m with body := m.body.setInstructions k [] }) hb hkb
      (hb.instructions_nodup k) his hstart (fun _ hj => absurd hj List.not_mem_nil)
  have hopened :
      Emitting c b k _ (others m.body k (b.block k).instructions)
      { m with body := m.body.setInstructions k [] } :=
    h.emitting hlist (h.consistent.setInstructions hk fun _ hj => absurd hj List.not_mem_nil)
  have hconverted := hopened.convertAll hb hkb (hb.instructions_nodup k) his hstart
    (fun i hi => ⟨Or.inl ⟨rfl, hi⟩, (his i hi).1, Classical.not_not.1 (his i hi).2⟩) he
  -- other blocks keep their lists
  have hothers : ∀ l, l ≠ k → (e.body.block l).instructions = (m.body.block l).instructions := by
    intro l hl
    rw [hlists, block_setInstructions _ hk]
    exact if_neg hl
  have hconverts := c.convertsBlock m k
  rw [hrun] at hconverts
  obtain _ | he' := hconverts
  obtain rfl := congrArg Prod.fst ((hlist ▸ he).symm.trans he')
  -- then none of the block is pending, and the rest of the code is that of the other blocks
  have hall : Emitting c b k (fun i => i ∈ b.instructions ∧ (b.instruction i).block ∈ ks)
      (others e.body k []) e := by
    refine hconverted.congr
      (fun j hj => ⟨hj.1.1, (List.mem_cons.1 hj.1.2).resolve_left fun hjk => ?_⟩) fun l j => ?_
    · exact hj.2 ((hb.mem_instructions k j).2 ⟨hj.1.1, hjk⟩)
    · constructor
      · rintro ⟨⟨-, hj⟩ | ⟨hl, hj⟩, hnot⟩
        · exact absurd hj hnot
        · exact Or.inr ⟨hl, by rwa [Stands, hothers l hl]⟩
      · rintro (⟨-, hj⟩ | ⟨hl, hj⟩)
        · exact absurd hj List.not_mem_nil
        · rw [Stands, hothers l hl] at hj
          refine ⟨Or.inr ⟨hl, hj⟩, fun hjk => hl ?_⟩
          rw [← hlist] at hjk
          exact (h.consistent.mem l j hj).2.symm.trans (h.consistent.mem k j hjk).2
  have htidy := hall.tidy ((hall.consistent.retains.mem_blocks k).2 hkb) List.nodup_nil
      fun l hl => by
    rw [hothers l hl]
    exact h.nodup l
  rwa [List.append_nil] at htidy

/-- What is written for a body that is built is consistent. -/
theorem insertLoadsAndStores_tidy (hb : b.Built) {m : Lowering}
    (hrun : c.insertLoadsAndStores { body := b } = (m, none)) :
    Tidy c b (fun _ => False) m.body := by
  have hw := hb.wellFormed
  have hblocks : ∃ m', attemptAll c.convertBlock { body := b } b.blocks.indices = (m', none) ∧
      Remaining c b [] m'.body ∧
      Tidy c b (fun i => i ∈ b.instructions ∧
      (b.instruction i).block ∈ ([] : List BlockId)) m'.body := by
    refine attemptAll_total (P := fun ks (m : Lowering) => Remaining c b ks m.body ∧
      Tidy c b (fun i => i ∈ b.instructions ∧ (b.instruction i).block ∈ ks) m.body)
      (fun k ks m h => ?_) ⟨remaining_start hw c, tidy_start hb c⟩
    obtain ⟨m', hm', hremaining⟩ := convertBlock_total hw h.1
    exact ⟨m', hm', hremaining, h.2.convertBlock hw h.1 hm'⟩
  obtain ⟨m', hm', -, htidy⟩ := hblocks
  obtain ⟨m₁, hm₁, rfl⟩ := insertLoadsAndStores_run hrun
  obtain rfl := congrArg Prod.fst (hm'.symm.trans hm₁)
  exact htidy.congr fun j hj => absurd hj.2 List.not_mem_nil

/-! ### Phi moves -/

/-- A phi may be stored once more. -/
theorem Emitting.store (h : Emitting c b k pending Q e) (line : Option UInt32) (hk : k ∈ b.blocks)
    {n : PhiMove} (hphi : (b.value n.phi).isPhi = true) (hsup : Supplied e.body (code e k Q) entry)
    (hrep : ¬ Repushed c b entry) :
    Extends c b k pending Q e (PhiMoves.store k line e (n, entry)) := by
  have hentry := hsup.mem_values h.consistent.coherent.closed
  have hk' := (h.consistent.retains.mem_blocks k).2 hk
  have hphi' := h.consistent.retains.isPhi hphi
  have hinputs : ∀ u ∈ [entry], u ∈ e.body.values := fun u hu => List.mem_singleton.1 hu ▸ hentry
  have houtput : ∀ u, some n.phi = some u → u ∈ e.body.values ∧
      ((e.body.value u).isStack = true ∨ Operation.store = .store ∧ u = n.phi) := by
    rintro u ⟨⟩
    exact ⟨mem_values_of_isPhi hphi', Or.inr ⟨rfl, rfl⟩⟩
  have hchange : Change e.body.instructions.next (fun u => u = n.phi) e.body
      (e.body.pushInstruction ⟨.store, [entry], some n.phi, k, line⟩).2 := .push hinputs houtput hk'
  refine h.emit (.single hchange) ?_
    (h.consistent.coherent.pushInstruction (fun u => u = n.phi) hinputs houtput hk' ?_)
    ((mem_instructions_pushInstruction ..).2 (Or.inr rfl)) (fun j => instruction_pushInstruction ..)
    rfl rfl fun u hu => ?_
  · rintro _ rfl ⟨i, ho, -⟩
    simp [Value.isPhi, ho] at hphi
  · rintro u ⟨⟩
    exact Or.inl hphi'
  · rw [List.mem_singleton.1 hu]
    exact ⟨hsup, hrep⟩

/-- Operands that phis read can be moved. -/
theorem Emitting.moveAll (hb : b.WellFormed) (h : Emitting c b k pending Q e) (line : Option UInt32)
    (hk : k ∈ b.blocks) {ms : List PhiMove}
    (hms : ∀ n ∈ ms, n.operand ∈ b.values ∧ (∃ p, p ∈ (e.body.value n.operand).users.phis) ∧
      (b.value n.phi).isPhi = true) :
        Extends c b k pending Q e (PhiMoves.moveAll c k line e ms) := by
  induction ms generalizing e with
  | nil => exact ⟨h, fun _ hu => hu, fun _ => rfl⟩
  | cons n ms ih =>
    have hr := h.consistent.retains
    obtain ⟨⟨hv, hread, hphi⟩, hms⟩ := List.forall_mem_cons.1 hms
    obtain ⟨entry, e₁, he₁, hchanges, hpushed, hsup, hrep⟩ :=
      h.pushOperand hb line (hr.mem_values _ hv) ((hr.mem_blocks k).2 hk) (Or.inr hread)
    have hrest := ih hpushed.emitting fun n hn => by
      rw [hchanges.phiReaders]
      exact hms n hn
    -- the phi is stored after all others, and its operand is still on the stack then
    rw [PhiMoves.moveAll_cons, he₁]
    exact (hpushed.trans hrest).trans
      (hrest.emitting.store line hk hphi (hrest.supplied entry hsup) hrep)

/-- Moves of operands that phis read can be added at the end of any block. -/
theorem Tidy.insert (hb : b.WellFormed) {m : Lowering} (h : Tidy c b pending m.body)
    (hk : k ∈ b.blocks) {ms : List PhiMove}
    (hms : ∀ n ∈ ms, n.operand ∈ b.values ∧ (∃ p, p ∈ (m.body.value n.operand).users.phis) ∧
      (b.value n.phi).isPhi = true) :
    Tidy c b pending (PhiMoves.insert c m k ms).body := by
  have hlist := PhiMoves.splitJump_append m.body (m.body.block k).instructions
  unfold PhiMoves.insert
  generalize PhiMoves.splitJump m.body (m.body.block k).instructions = split at hlist ⊢
  obtain ⟨before, jump⟩ := split
  simp only
  generalize (jump.bind fun i => (m.body.instruction i).line) = line
  have hopened :
      Emitting c b k pending (others m.body k jump.toList) { m with emitted := before } :=
    h.emitting hlist.symm h.consistent
  have hmoved := hopened.moveAll hb line hk hms
  have hothers : others m.body k jump.toList =
      others (PhiMoves.moveAll c k line { m with emitted := before } ms).body k jump.toList := by
    funext l j
    rw [others, others, Stands, Stands, hmoved.instructions]
  have hall := hmoved.emitting
  rw [hothers] at hall
  refine hall.tidy ((hall.consistent.retains.mem_blocks k).2 hk) ?_ fun l _ => ?_
  · cases jump <;> simp
  · rw [hmoved.instructions]
    exact h.nodup l

/-- Nothing more is wanted when a phi no longer counts as a reader. -/
theorem Tidy.detach (h : Tidy c b pending f) (p : ValueId) :
    Tidy c b pending (PhiMoves.detach f p) := by
  refine List.foldlRecOn (motive := Tidy c b pending) _ _ h fun f h v _ => ⟨?_, h.nodup⟩
  have horigin : ∀ u, ((f.modifyValue v (·.removePhiReader p)).value u).origin =
      (f.value u).origin :=
    fun u => value_modifyValue_congr _ _ _ Value.origin fun _ => rfl
  refine h.consistent.step (retains_removePhiReader v p) (h.consistent.coherent.removePhiReader v p)
    (fun u _ => horigin u) h.consistent.mem (fun u _ _ hs => hs.imp_left fun hphi => ?_)
    (fun l j hj hnot _ => Or.inl ⟨hj, hnot, rfl⟩) fun u hu => Or.inl ?_
  · rw [Value.isPhi, horigin]
    exact hphi
  · rw [value_modifyValue] at hu
    split at hu
    · rcases hu with hinstruction | ⟨q, hq⟩
      · exact Or.inl hinstruction
      · exact Or.inr ⟨q, (Value.mem_removePhiReader.1 hq).2⟩
    · exact hu

/-- All that phis still read can be moved into them. -/
theorem Tidy.keptByMoves (hb : b.WellFormed) : PhiMoves.KeptByMoves c b (Tidy c b pending) := by
  refine ⟨fun k ks m source ms hsource hdetaching hms hm => hm.insert hb hsource fun n hn => ?_,
    fun f p hf => hf.detach p⟩
  obtain ⟨hp, hv⟩ := hms n hn
  exact ⟨hb.operands_mem _ _ hv,
    ⟨n.phi, (hdetaching.phiReaders _ _).2 ⟨hv, k, List.mem_cons_self, hp⟩⟩, hb.isPhi_of_mem_phis hp⟩

end StackCoding

/-! ### All of it -/

namespace Body

open StackCoding PhiMoves

variable {b : Body}

/-- Nothing is left to be converted in stack code. -/
theorem toStackCode_tidy (hb : b.Built) {c : StackCoding} {a a' : Locals} {m : Lowering}
    (hcode : b.toStackCode c a = ((m, a'), none)) : Tidy c b (fun _ => False) m.body := by
  have hw := hb.wellFormed
  obtain ⟨coded, hcoded, hcode⟩ := toStackCode_run hcode
  have htidy := insertLoadsAndStores_tidy hb hcoded
  exact ((detaching_of_halfway hw (insertLoadsAndStores_halfway hw hcoded)
    htidy.consistent.coherent.readers).insertPhiMoves hw (Tidy.keptByMoves hw) htidy hcode).2

/-- **Stack code is in single-definition form**, before the phis are replaced by moves and after it,
and so is each body that is built. There, a block is marked only if one of its instructions can
throw. -/
theorem toStackCode_singleDefinition (hb : b.Built) (c : StackCoding) (a : Locals) :
    b.SingleDefinition ∧
      (∀ k, (b.block k).throwing = true → ∃ i ∈ (b.block k).instructions, b.canThrow i = true) ∧
      (∃ m, c.insertLoadsAndStores { body := b } = (m, none) ∧ m.body.SingleDefinition) ∧
      ∀ m a', b.toStackCode c a = ((m, a'), none) → m.body.SingleDefinition := by
  obtain ⟨coded, hcoded, -⟩ := insertLoadsAndStores_total hb.wellFormed c
  exact ⟨hb.singleDefinition, fun k => (hb.throwing_iff k).1,
    ⟨coded, hcoded, (insertLoadsAndStores_tidy hb hcoded).singleDefinition⟩,
    fun m a' hcode => (toStackCode_tidy hb hcode).singleDefinition⟩

/-- A loop that halves a number. The divisor is pushed where it is used, and on an edge into the
loop. -/
def halvingLoop : Body := .ofSteps ⟨0⟩
  [.block, .block, .block, .edge ⟨0⟩ ⟨1⟩, .edge ⟨1⟩ ⟨2⟩, .edge ⟨2⟩ ⟨1⟩,
   .instruction ⟨0⟩ (.argument 0) [] (some (.field (.base .int))),
   .instruction ⟨0⟩ (.constant (.number (.int 2))) [] (some (.field (.base .int))),
   .instruction ⟨0⟩ .goto,
   .phi ⟨1⟩ (.field (.base .int)), .phi ⟨1⟩ (.field (.base .int)), .instruction ⟨1⟩ .goto,
   .instruction ⟨2⟩ (.binary .div) [⟨2⟩, ⟨1⟩] (some (.field (.base .int))), .instruction ⟨2⟩ .goto,
   .operand ⟨2⟩ ⟨0⟩, .operand ⟨2⟩ ⟨4⟩, .operand ⟨3⟩ ⟨1⟩, .operand ⟨3⟩ ⟨2⟩]

/-- The definition of the divisor is dropped, and the code is still in this form. -/
theorem toStackCode_singleDefinition_halvingLoop :
    (∃ i ∈ (halvingLoop.block ⟨2⟩).instructions, halvingLoop.canThrow i = true) ∧
      ⟨1⟩ ∈ halvingLoop.placed ∧
      ∃ m a', halvingLoop.toStackCode ⟨{}, none⟩ {} = ((m, a'), none) ∧ ⟨1⟩ ∉ m.body.placed ∧
        m.body.SingleDefinition := by
  have hb : halvingLoop.Built := built_ofSteps _ _
  obtain ⟨-, hthrowing, -, hcode⟩ := toStackCode_singleDefinition hb ⟨{}, none⟩ {}
  refine ⟨hthrowing _ (by decide +kernel), by decide +kernel, ?_⟩
  obtain ⟨m, a', hrun, hdropped⟩ :=
    toStackCode_of_check (b := halvingLoop) (c := ⟨{}, none⟩) (a := {}) (fun f => ⟨1⟩ ∉ f.placed)
      (by decide +kernel)
  exact ⟨m, a', hrun, of_decide_eq_true hdropped, hcode m a' hrun⟩

end Body

end JvmLowering
