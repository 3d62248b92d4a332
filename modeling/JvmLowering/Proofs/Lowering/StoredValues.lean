import JvmLowering.Proofs.Lowering.Layout

/-!
# Values in local variables

Which values get a local variable is decided before a body is turned into stack code, from who reads
them, and which values are loaded and stored is decided while that is being done. The two agree:
what is loaded or stored has a local variable, and what has one is an argument, a phi, or stored in
exactly one place.

* `Body.placed`, `Body.Loads`, `Body.Stores`: the instructions of all blocks, and what they load and
  store;
* `StackCoding.Laid.countP_stores`: an output is stored right after the instruction that makes it,
  and nowhere else;
* `Body.lower_uses_locals`: loads and stores against the naive allocation.
-/

namespace JvmLowering

/-! ### Loads and stores -/

namespace Body

variable {c : StackCoding} {b f : Body} {i j : InsnId} {v : ValueId} {k : BlockId}

/-- The instructions of all blocks. -/
def placed (b : Body) : List InsnId := b.blocks.indices.flatMap fun k => (b.block k).instructions

/-- An instruction pushes the local variable of a value. -/
def Loads (b : Body) (i : InsnId) (v : ValueId) : Prop :=
  (b.instruction i).operation = .load ∧ v ∈ (b.instruction i).inputs

/-- An instruction pops into the local variable of a value. -/
def Stores (b : Body) (i : InsnId) (v : ValueId) : Prop :=
  (b.instruction i).operation = .store ∧ (b.instruction i).output = some v

instance (b : Body) (i : InsnId) (v : ValueId) : Decidable (b.Stores i v) :=
  inferInstanceAs (Decidable (_ ∧ _))

theorem mem_placed : i ∈ b.placed ↔ ∃ k ∈ b.blocks, i ∈ (b.block k).instructions := by
  simp [placed, Table.mem_indices]

/-- No instruction stands in two blocks if each knows its block. -/
theorem nodup_flatMap_instructions {ks : List BlockId} (hks : ks.Nodup)
    (hnodup : ∀ k, (b.block k).instructions.Nodup)
    (hblock : ∀ k, ∀ i ∈ (b.block k).instructions, (b.instruction i).block = k) :
    (ks.flatMap fun k => (b.block k).instructions).Nodup := by
  refine List.nodup_flatMap.2 ⟨fun k _ => hnodup k, hks.imp fun {k l} hne => ?_⟩
  intro i hk hl
  exact hne ((hblock k i hk).symm.trans (hblock l i hl))

/-- No instruction is placed twice. -/
theorem WellFormed.nodup_placed (hb : b.WellFormed) {ks : List BlockId} (hks : ks.Nodup) :
    (ks.flatMap fun k => (b.block k).instructions).Nodup :=
  nodup_flatMap_instructions hks hb.instructions_nodup fun k i hi =>
    ((hb.mem_instructions k i).1 hi).2

theorem mem_values_of_read (hread : (b.value v).users.isEmpty = false) : v ∈ b.values := by
  by_contra hv
  rw [value_of_notMem hv] at hread
  exact absurd hread (by decide)

end Body

namespace StackCoding

open Body

variable {c : StackCoding} {b f : Body} {i j : InsnId} {v entry : ValueId} {k : BlockId} {h : Nat}
  {line : Option UInt32} {vs es : List ValueId} {is js code : List InsnId}

/-- A load is there for a value that is read and is not pushed as a constant. -/
theorem Written.loads (hj : Written c b f k code j) (hb : b.WellFormed) (hr : b.Retains f)
    (hplain : ∀ i ∈ b.instructions, (b.instruction i).operation ∉ [.load, .store, .pop])
    (hloads : f.Loads j v) :
    (b.value v).users.isEmpty = false ∧ c.constant? b v = none := by
  obtain ⟨hop, hv⟩ := hloads
  have hnew : j ∉ b.instructions := fun hmem => hplain j hmem (by simp [← hr.operation j hmem, hop])
  cases hj with
  | argument mem => exact absurd ((hb.mem_instructions k j).1 mem).1 hnew
  | kept mem => exact absurd ((hb.mem_instructions k j).1 mem).1 hnew
  | @pushed w entry line _ read instruction _ =>
    rw [instruction] at hop hv
    unfold pushing at hop hv
    split at hop
    · simp at hop
    · rename_i hnone
      simp only [hnone, List.mem_singleton] at hv
      exact hv ▸ ⟨read, hnone⟩
  | taken _ _ _ _ _ instruction =>
    rw [instruction] at hop
    unfold taking at hop
    split at hop <;> simp at hop
  | moved _ _ instruction =>
    rw [instruction] at hop
    simp at hop

/-- A store is there for a phi, or for an output that is read and is not pushed as a constant. -/
theorem Written.stores (hj : Written c b f k code j) (hb : b.WellFormed) (hr : b.Retains f)
    (hplain : ∀ i ∈ b.instructions, (b.instruction i).operation ∉ [.load, .store, .pop])
    (hstores : f.Stores j v) :
    (b.value v).isPhi = true ∨ (b.value v).users.isEmpty = false ∧ c.constant? b v = none := by
  obtain ⟨hop, hv⟩ := hstores
  -- a store is not in the body, so it takes a result away or belongs to a move
  have hnew : j ∉ b.instructions := fun hmem => hplain j hmem (by simp [← hr.operation j hmem, hop])
  cases hj with
  | argument mem => exact absurd ((hb.mem_instructions k j).1 mem).1 hnew
  | kept mem => exact absurd ((hb.mem_instructions k j).1 mem).1 hnew
  | pushed _ _ instruction _ =>
    rw [instruction] at hop
    unfold pushing at hop
    split at hop <;> simp at hop
  | taken _ _ _ undropped output instruction =>
    rw [instruction] at hop hv
    unfold taking at hop hv
    split at hop
    · simp at hop
    · rename_i hread
      rw [if_neg hread] at hv
      obtain rfl := Option.some.inj hv
      exact Or.inr ⟨by simpa using hread, constant?_of_output hb output undropped⟩
  | moved _ operand instruction =>
    rw [instruction] at hv
    obtain rfl := Option.some.inj hv
    exact Or.inl (isPhi_of_operand operand)

theorem Written.isSome_slot? {slot? : ValueId → Option Nat} (hj : Written c b f k code j)
    (hb : b.WellFormed) (hr : b.Retains f)
    (hplain : ∀ i ∈ b.instructions, (b.instruction i).operation ∉ [.load, .store, .pop])
    (homes : Homes c b slot?) (hv : f.Loads j v ∨ f.Stores j v) : (slot? v).isSome := by
  have hread : (b.value v).users.isEmpty = false ∧ c.constant? b v = none → (slot? v).isSome :=
    fun h => homes.read v (mem_values_of_read h.1) h.1 h.2
  rcases hv with hloads | hstores
  · exact hread (hj.loads hb hr hplain hloads)
  · rcases hj.stores hb hr hplain hstores with hphi | hstored
    · obtain ⟨l, ho⟩ := origin_of_isPhi hphi
      exact homes.phi l v ((hb.mem_phis l v).2 ⟨_, ho⟩)
    · exact hread hstored

/-! ### How often a value is stored -/

theorem Pushed.not_stores (hp : Pushed c b f k line h v entry j) (w : ValueId) :
    ¬ f.Stores j w := by
  rintro ⟨hop, -⟩
  rw [hp.instruction] at hop
  unfold pushing at hop
  split at hop <;> simp at hop

theorem Pushes.countP_stores (hp : Pushes c b f k line h vs es js) (w : ValueId) :
    js.countP (f.Stores · w) = 0 := by
  refine List.countP_eq_zero.2 fun j hj => ?_
  obtain ⟨v, -, n, entry, hpushed⟩ := hp.pushed j hj
  simpa using hpushed.not_stores w

/-- What is asked of an instruction whose output is stored. -/
structure Stored (c : StackCoding) (b : Body) (i : InsnId) (v : ValueId) : Prop where
  output : (b.instruction i).output = some v
  operation : (b.instruction i).operation.isArgument = false
  undropped : c.isDropped b (b.instruction i) = false
  read : (b.value v).users.isEmpty = false

/-- A value that gets a local variable of its own is a phi or will be stored. -/
theorem stored_of_needsSlot (hb : b.WellFormed) (hneeded : Locals.needsSlot c.settings b v = true) :
    (b.value v).isPhi = true ∨ ∃ i, Stored c b i v := by
  unfold Locals.needsSlot at hneeded
  split at hneeded
  · rename_i ho
    simp [Value.isPhi, ho]
  · simp at hneeded
  · rename_i i ho
    simp only [Bool.and_eq_true, Bool.not_eq_true'] at hneeded
    obtain ⟨⟨hread, hargument⟩, hconstant⟩ := hneeded
    refine Or.inr ⟨i, (hb.output_of_origin v i ho).2, hargument, ?_, hread⟩
    rw [isDropped_eq hb (Kept.refl c b), hconstant]

/-- The output of an instruction is stored right after the instruction. -/
theorem Becomes.countP_stores (hj : Becomes c b f k j is) (hb : b.WellFormed) (hs : Stored c b i v)
    (hself : ¬ f.Stores j v) :
    is.countP (f.Stores · v) = [j].count i := by
  have hcount : [j].count i = if j = i then 1 else 0 := by
    by_cases hji : j = i <;> simp [hji]
  rw [hcount]
  -- of what an instruction becomes, only the end of one with a result can store
  cases hj with
  | argument operation =>
    have hne : j ≠ i := by
      rintro rfl
      simp [hs.operation] at operation
    simp [hne, hself]
  | dropped _ dropped =>
    have hne : j ≠ i := by
      rintro rfl
      simp [hs.undropped] at dropped
    simp [hne]
  | effect _ _ output pushes =>
    have hne : j ≠ i := by
      rintro rfl
      simp [hs.output] at output
    rw [if_neg hne, List.countP_append, pushes.countP_stores]
    simp [hself]
  | @result w entry es js s _ _ output pushes _ _ _ _ _ taken =>
    -- and that stores the output of the instruction itself
    have hlast : f.Stores s v ↔ j = i := by
      constructor
      · rintro ⟨-, hout⟩
        rw [taken] at hout
        unfold taking at hout
        split at hout
        · simp at hout
        · obtain rfl := Option.some.inj hout
          exact hb.output_inj output hs.output
      · rintro rfl
        obtain rfl : w = v := Option.some.inj (output.symm.trans hs.output)
        simp [Stores, taken, taking, hs.read]
    rw [List.countP_append, pushes.countP_stores]
    simp [hself, hlast, List.countP_cons]

theorem Laid.countP_stores (hl : Laid c b f k is js) (hb : b.WellFormed) (hs : Stored c b i v)
    (hself : ∀ j ∈ is, ¬ f.Stores j v) :
    js.countP (f.Stores · v) = is.count i := by
  induction hl with
  | nil => rfl
  | @cons j is rest js first _ ih =>
    obtain ⟨hj, hrest⟩ := List.forall_mem_cons.1 hself
    rw [List.countP_append, first.countP_stores hb hs hj, ih hrest, ← List.count_append,
      List.singleton_append]

end StackCoding

namespace Body

open StackCoding PhiMoves

variable {c : StackCoding} {b f : Body} {i : InsnId} {v : ValueId} {k : BlockId}
  {moves : List PhiMove} {front added : List InsnId} {jump : Option InsnId}

theorem Arranged.countP_stores (ha : Arranged c b f k moves front added jump) (hb : b.WellFormed)
    (hr : b.Retains f)
    (hplain : ∀ i ∈ b.instructions, (b.instruction i).operation ∉ [.load, .store, .pop])
    (hs : Stored c b i v) :
    (f.block k).instructions.countP (f.Stores · v) = (b.block k).instructions.count i := by
  obtain ⟨line, hrun⟩ := ha.run
  have hself : ∀ j ∈ (b.block k).instructions, ¬ f.Stores j v := by
    rintro j hj ⟨hop, -⟩
    obtain ⟨hmem, -⟩ := (hb.mem_instructions k j).1 hj
    exact hplain j hmem (by simp [← hr.operation j hmem, hop])
  -- moves store phis, and an output is none
  have hadded : added.countP (f.Stores · v) = 0 := by
    refine List.countP_eq_zero.2 fun j hj => ?_
    rcases hrun.cases j hj with ⟨m, -, n, entry, hpushed⟩ | ⟨m, hm, entry, -, hstored⟩
    · simpa using hpushed.not_stores v
    · simp only [decide_eq_true_eq]
      rintro ⟨-, hout⟩
      rw [hstored] at hout
      obtain ⟨l, hphi⟩ := origin_of_isPhi (isPhi_of_operand (ha.operand m hm))
      rw [Option.some.inj hout, (hb.origin_of_output i v hs.output).2] at hphi
      exact Origin.noConfusion hphi
  rw [← ha.laid.countP_stores hb hs hself, ha.list, List.countP_append, List.countP_append,
    List.countP_append, hadded, Nat.add_zero]

/-- Every output that is stored at all is stored once. -/
theorem countP_stores_placed (hb : b.WellFormed) (hr : b.Retains f)
    (hplain : ∀ i ∈ b.instructions, (b.instruction i).operation ∉ [.load, .store, .pop])
    {moves : BlockId → List PhiMove}
    (harranged : ∀ k ∈ b.blocks, ∃ front added jump, Arranged c b f k (moves k) front added jump)
    (hs : Stored c b i v) :
    f.placed.countP (f.Stores · v) = 1 := by
  have hi : i ∈ b.instructions := (hb.output_of_origin v i (hb.origin_of_output i v hs.output).2).1
  have hlist : i ∈ (b.block (b.instruction i).block).instructions :=
    (hb.mem_instructions _ i).2 ⟨hi, rfl⟩
  have hsum : f.placed.countP (f.Stores · v) =
      (f.blocks.indices.flatMap fun k => (b.block k).instructions).count i := by
    unfold placed
    rw [List.countP_flatMap, List.count_flatMap]
    refine congrArg List.sum (List.map_congr_left fun k hk => ?_)
    obtain ⟨front, added, jump, ha⟩ := harranged k ((hr.mem_blocks k).1 (Table.mem_indices.1 hk))
    exact ha.countP_stores hb hr hplain hs
  rw [hsum]
  refine List.count_eq_one_of_mem (hb.nodup_placed (Table.nodup_indices _))
    (List.mem_flatMap.2 ⟨(b.instruction i).block, ?_, hlist⟩)
  exact Table.mem_indices.2
    ((hr.mem_blocks _).2 (mem_blocks_of_instruction (hb.mem_instructionsOf hi)))

theorem isConstant_of_constant? (hr : c.settings.rematerialize = true)
    (h : c.constant? b v = none) : b.isConstant v = false := by
  cases hd : b.definition? v with
  | none => simp [isConstant, hd]
  | some insn =>
    obtain ⟨operation, inputs, output, block, line⟩ := insn
    cases operation <;> simp_all [isConstant, StackCoding.constant?, Operation.isConstant]

/-- Nothing becomes a constant. -/
theorem Retains.isConstant (hr : b.Retains f) (hb : b.WellFormed) (hv : v ∈ b.values)
    (h : b.isConstant v = false) :
    f.isConstant v = false := by
  cases ho : (b.value v).origin with
  | phi l operands =>
    exact isConstant_eq_false_of_isPhi (by simp [Value.isPhi, hr.phi v l operands ho])
  | stack slot definition => exact absurd ho (hb.not_stack v hv slot definition)
  | instruction i =>
    rcases hr.made v i ho with ho' | hstored
    · rw [isConstant_congr hb.closed hr (ho'.trans ho.symm), h]
    · exact isConstant_eq_false_of_isStored hstored

/-- **The naive allocation fits the code.** What is loaded or stored has a local variable, and what
has one is an argument of the entry block, a phi, or stored exactly once. Constants that are pushed
where they are used are not loaded. -/
theorem lower_uses_locals {b : Body} (hb : b.Built)
    (hplain : ∀ i ∈ b.instructions, (b.instruction i).operation ∉ [.load, .store, .pop])
    (harguments : ∀ i ∈ b.instructions, (b.instruction i).operation.isArgument = true →
      (b.instruction i).block = entry) {g : Hierarchy} {settings : Settings} {a a' : Locals}
    {lowered : LoweredMethod} (ha : Locals.naive settings b = .ok a)
    (hlower : (b.lower g settings a).result = (a', .ok lowered)) :
    (∀ i ∈ lowered.body.placed, ∀ v, lowered.body.Loads i v ∨ lowered.body.Stores i v →
      (a.slot? v).isSome) ∧
    (∀ v, (a.slot? v).isSome → v ∈ (Locals.entryArguments b).map Prod.snd ∨
      (b.value v).isPhi = true ∨
      lowered.body.placed.countP (lowered.body.Stores · v) = 1) ∧
    (settings.rematerialize = true → ∀ i ∈ lowered.body.placed, ∀ v, lowered.body.Loads i v →
      b.isConstant v = false ∧ lowered.body.isConstant v = false) ∧
    a'.slot? = a.slot? := by
  have hw := hb.wellFormed
  obtain ⟨types, verifier, m, frames, -, -, hcode, -, rfl⟩ := lower_eq_ok.1 hlower
  obtain ⟨hslots, hretains, moves, harranged, -⟩ :=
    toStackCode_arranged hw (noMoves_of_plain hplain) hcode
  -- all that stands in the code was written for an instruction or for a move
  have hwritten : ∀ i ∈ m.body.placed, ∃ k code,
      Written ⟨settings, if settings.preciseStack then some verifier else none⟩ b
      m.body k code i := by
    intro i hi
    obtain ⟨k, hk, hik⟩ := mem_placed.1 hi
    obtain ⟨front, added, jump, harr⟩ := harranged k ((hretains.mem_blocks k).1 hk)
    exact ⟨k, _, harr.written hw i hik⟩
  refine ⟨fun i hi v hv => ?_, fun v hv => ?_, fun hrematerialize i hi v hv => ?_, hslots⟩
  · obtain ⟨k, code, hi⟩ := hwritten i hi
    exact hi.isSome_slot? hw hretains hplain (homes_of_naive hw harguments ha) hv
  · obtain ⟨-, -, hplaced⟩ := Locals.naive_ok ha
    -- an argument is not stored, a phi is stored on edges, and an output once
    rcases (hplaced v).1 hv with hargument | ⟨-, hneeded⟩
    · exact Or.inl hargument
    · rcases stored_of_needsSlot
        (c := ⟨settings, if settings.preciseStack then some verifier else none⟩) hw hneeded with
        hphi | ⟨i, hs⟩
      · exact Or.inr (Or.inl hphi)
      · exact Or.inr (Or.inr (countP_stores_placed hw hretains hplain harranged hs))
  · obtain ⟨k, code, hi⟩ := hwritten i hi
    obtain ⟨hread, hnone⟩ := hi.loads hw hretains hplain hv
    have hconstant := isConstant_of_constant? hrematerialize hnone
    exact ⟨hconstant, hretains.isConstant hw (mem_values_of_read hread) hconstant⟩

/-- The arguments of the loop and its two phis have local variables, and so has the sum that is
returned, which is stored once. -/
theorem lower_uses_locals_swapLoop :
    (∀ i ∈ swapLoop.instructions, (swapLoop.instruction i).operation ∉ [.load, .store, .pop]) ∧
    (∀ i ∈ swapLoop.instructions, (swapLoop.instruction i).operation.isArgument = true →
      (swapLoop.instruction i).block = entry) ∧
    ∃ a a' lowered, Locals.naive {} swapLoop = .ok a ∧ (swapLoop.lower swapHierarchy {} a).result =
      (a', .ok lowered) ∧
      (a.slot? ⟨6⟩).isSome ∧ lowered.body.placed.countP (lowered.body.Stores · ⟨6⟩) = 1 := by
  have hplain : ∀ i ∈ swapLoop.instructions.indices,
      (swapLoop.instruction i).operation ∉ [.load, .store, .pop] := by
    decide +kernel
  have harguments : ∀ i ∈ swapLoop.instructions.indices,
      (swapLoop.instruction i).operation.isArgument = true →
      (swapLoop.instruction i).block = entry := by
    decide +kernel
  have hother : (∀ i ∈ (swapLoop.block entry).instructions,
      (swapLoop.instruction i).output ≠ some ⟨6⟩) ∧ (swapLoop.value ⟨6⟩).isPhi = false ∧
      ⟨6⟩ ∈ swapLoop.values ∧ Locals.needsSlot {} swapLoop ⟨6⟩ = true := by
    decide +kernel
  have hargument : ⟨6⟩ ∉ (Locals.entryArguments swapLoop).map Prod.snd := by
    intro hmem
    obtain ⟨⟨index, v⟩, hmem, rfl⟩ := List.mem_map.1 hmem
    obtain ⟨i, hi, -, hout⟩ := Locals.mem_entryArguments.1 hmem
    exact hother.1 i hi hout
  have hbuilt : swapLoop.Built := built_ofSteps _ _
  obtain ⟨a, a', lowered, ha, hlowered, -⟩ := swapLoop_lowered
  have hslot : (a.slot? ⟨6⟩).isSome := ((Locals.naive_ok ha).2.2 ⟨6⟩).2 (Or.inr hother.2.2)
  obtain ⟨-, hstored, -⟩ := lower_uses_locals hbuilt (fun i hi => hplain i (Table.mem_indices.2 hi))
    (fun i hi => harguments i (Table.mem_indices.2 hi)) ha hlowered
  refine ⟨fun i hi => hplain i (Table.mem_indices.2 hi),
    fun i hi => harguments i (Table.mem_indices.2 hi), a, a', lowered, ha, hlowered, hslot, ?_⟩
  exact ((hstored ⟨6⟩ hslot).resolve_left hargument).resolve_left (by simp [hother.2.1])

end Body

end JvmLowering
