import JvmLowering.Proofs.Lowering.SingleDefinition

/-!
# The operand stack of stack code

The stack is empty where a block begins and where it ends. In between every instruction finds the
entries that it takes on top of the stack, in order, and what it leaves is an entry that knows its
height. Moves stand before the jump that ends a block. If the jump itself reads something, its
inputs have been pushed before the moves, whose entries are counted as if nothing were below them.
So their heights are too low by the width of these inputs, and the height that is reserved is the
largest one that is counted, which may be lower than the one that is reached.

* `Body.stackRun`, `Body.stackTrace`: the stacks of a list of instructions;
* `Body.uncounted`: what is left out of the height of an entry;
* `Body.Passes`: what a list of instructions does to a stack;
* `Body.toStackCode_stackRun`: all blocks of stack code;
* `Body.maxStack_jumpInput`: a jump with an input.
-/

namespace JvmLowering

/-! ### What instructions do to the stack -/

namespace Instruction

variable {insn : Instruction}

/-- What an instruction takes off the stack, the last on top. -/
def taken (insn : Instruction) : List ValueId :=
  match insn.operation with
  | .argument _ | .load => []
  | _ => insn.inputs

/-- What an instruction leaves on the stack. -/
def left (insn : Instruction) : Option ValueId :=
  match insn.operation with
  | .argument _ | .store | .pop => none
  | _ => insn.output

theorem taken_of_plain (hop : insn.operation ∉ [.load, .store, .pop])
    (hargument : insn.operation.isArgument = false) :
    insn.taken = insn.inputs := by
  unfold taken
  split
  · rename_i hindex
    simp [hindex, Operation.isArgument] at hargument
  · rename_i hload
    simp [hload] at hop
  · rfl

theorem left_of_plain (hop : insn.operation ∉ [.load, .store, .pop])
    (hargument : insn.operation.isArgument = false) :
    insn.left = insn.output := by
  unfold left
  split
  · rename_i hindex
    simp [hindex, Operation.isArgument] at hargument
  · rename_i hstore
    simp [hstore] at hop
  · rename_i hpop
    simp [hpop] at hop
  · rfl

theorem output_of_left {v : ValueId} (h : insn.left = some v) : insn.output = some v := by
  unfold left at h
  split at h <;> simp_all

theorem taken_of_argument (h : insn.operation.isArgument = true) : insn.taken = [] := by
  unfold Operation.isArgument at h
  split at h
  · rename_i hindex
    simp only [taken, hindex]
  · simp at h

theorem left_of_argument (h : insn.operation.isArgument = true) : insn.left = none := by
  unfold Operation.isArgument at h
  split at h
  · rename_i hindex
    simp only [left, hindex]
  · simp at h

end Instruction

namespace Body

/-- The stack after an instruction, the top first. What the instruction takes has to be on top. -/
def stackStep (b : Body) (stack : List ValueId) (i : InsnId) : Option (List ValueId) :=
  if (b.instruction i).taken.reverse <+: stack then
    some ((b.instruction i).left.toList ++ stack.drop (b.instruction i).taken.length)
  else none

/-- The stack after some instructions. -/
def stackRun (b : Body) (stack : List ValueId) : List InsnId → Option (List ValueId)
  | [] => some stack
  | i :: is => (b.stackStep stack i).bind fun stack => b.stackRun stack is

/-- Each instruction with the stack after it, as far as the instructions run. -/
def stackTrace (b : Body) (stack : List ValueId) : List InsnId → List (InsnId × List ValueId)
  | [] => []
  | i :: is =>
    match b.stackStep stack i with
    | none => []
    | some stack => (i, stack) :: b.stackTrace stack is

/-- The largest total width of a stack in any block. -/
def stackHeight (b : Body) : Nat :=
  ((b.blocks.indices.flatMap fun k => b.stackTrace [] (b.block k).instructions).map fun x =>
    b.widthOf x.2).foldr max 0

/-- The inputs of the jump that ends a block. -/
def jumpInputs (b : Body) (k : BlockId) : List ValueId :=
  ((b.jump? k).map fun i => (b.instruction i).inputs).getD []

/-- An entry is stored into a phi. -/
def IsMoved (b : Body) (k : BlockId) (entry : ValueId) : Prop :=
  ∃ s ∈ (b.block k).instructions, (b.instruction s).operation = .store ∧
    (b.instruction s).inputs = [entry] ∧
    (b.instruction s).output.any (fun p => (b.value p).isPhi) = true

instance (b : Body) (k : BlockId) (entry : ValueId) : Decidable (b.IsMoved k entry) :=
  inferInstanceAs (Decidable (∃ s ∈ (b.block k).instructions, _))

/-- An entry that is stored into a phi, in a block whose jump reads something. -/
def OverJumpInputs (b : Body) (k : BlockId) (entry : ValueId) : Prop :=
  b.jumpInputs k ≠ [] ∧ b.IsMoved k entry

instance (b : Body) (k : BlockId) (entry : ValueId) : Decidable (b.OverJumpInputs k entry) :=
  inferInstanceAs (Decidable (_ ∧ _))

/-- The width of what is below an entry and is not counted in its height. -/
def uncounted (b : Body) (k : BlockId) (entry : ValueId) : Nat :=
  if b.OverJumpInputs k entry then b.widthOf (b.jumpInputs k) else 0

/-- An entry has the width of its type, and its height is the total width of what is counted below
it. -/
def InPlace (b : Body) (k : BlockId) (below : List ValueId) (entry : ValueId) : Prop :=
  ∃ slot, (b.value entry).slot? = some slot ∧ width slot.type = width (b.value entry).type ∧
    slot.height + b.uncounted k entry = b.widthOf below

/-- How high the stack after an instruction is counted. It is counted where an entry is left. -/
def counted (b : Body) (k : BlockId) (x : InsnId × List ValueId) : Nat :=
  ((b.instruction x.1).left.map fun entry => b.widthOf x.2 - b.uncounted k entry).getD 0

/-- How high the stacks of some instructions are counted. -/
def reach (b : Body) (k : BlockId) (stack : List ValueId) (is : List InsnId) : Nat :=
  ((b.stackTrace stack is).map (b.counted k)).foldr max 0

/-- The largest height that is counted in any block. -/
def countedHeight (b : Body) : Nat :=
  (b.blocks.indices.map fun k => b.reach k [] (b.block k).instructions).foldr max 0

variable {c : StackCoding} {b f : Body} {i j : InsnId} {v entry : ValueId} {k : BlockId}
  {h n top top' : Nat} {line : Option UInt32} {S T U vs es : List ValueId} {is js : List InsnId}

theorem stackStep_of_taken (hi : (b.instruction i).taken = vs) (S : List ValueId) :
    b.stackStep (vs.reverse ++ S) i = some ((b.instruction i).left.toList ++ S) := by
  unfold stackStep
  rw [hi, if_pos (List.prefix_append _ _), ← List.length_reverse, List.drop_left]

theorem stackRun_append (b : Body) (S : List ValueId) (is js : List InsnId) :
    b.stackRun S (is ++ js) = (b.stackRun S is).bind fun T => b.stackRun T js := by
  induction is generalizing S with
  | nil => rfl
  | cons i is ih =>
    simp only [List.cons_append, stackRun]
    cases b.stackStep S i with
    | none => rfl
    | some T => exact ih T

theorem stackTrace_append (hrun : b.stackRun S is = some T) (js : List InsnId) :
    b.stackTrace S (is ++ js) = b.stackTrace S is ++ b.stackTrace T js := by
  induction is generalizing S with
  | nil =>
    obtain rfl : S = T := Option.some.inj hrun
    rfl
  | cons i is ih =>
    simp only [List.cons_append, stackRun, stackTrace] at hrun ⊢
    cases hstep : b.stackStep S i with
    | none => simp [hstep] at hrun
    | some S' =>
      rw [hstep, Option.bind_some] at hrun
      exact congrArg _ (ih hrun)

/-! ### Heights -/

theorem widthOf_pos (hvs : vs ≠ []) : 0 < b.widthOf vs := by
  cases vs with
  | nil => exact absurd rfl hvs
  | cons v vs => exact Nat.lt_of_lt_of_le (width_declared _).1 (Nat.le_add_right _ _)

theorem widthOf_reverse (b : Body) (vs : List ValueId) : b.widthOf vs.reverse = b.widthOf vs := by
  induction vs with
  | nil => rfl
  | cons v vs ih =>
    rw [List.reverse_cons, widthOf_append, ih, widthOf_cons, widthOf_cons, widthOf_nil]
    omega

theorem widthOf_drop_le (b : Body) (n : Nat) (vs : List ValueId) :
    b.widthOf (vs.drop n) ≤ b.widthOf vs := by
  have hparts := b.widthOf_append (vs.take n) (vs.drop n)
  rw [List.take_append_drop] at hparts
  omega

theorem uncounted_eq_zero : b.uncounted k entry = 0 ↔ ¬ b.OverJumpInputs k entry := by
  unfold uncounted
  split
  · rename_i hover
    exact iff_of_false (Nat.pos_iff_ne_zero.1 (widthOf_pos hover.1)) (not_not_intro hover)
  · rename_i hover
    exact iff_of_true rfl hover

/-- What is below an entry that is moved is not counted, whatever it is. -/
theorem uncounted_of_isMoved (hmoved : b.IsMoved k entry) :
    b.uncounted k entry = b.widthOf (b.jumpInputs k) := by
  unfold uncounted
  split
  · rfl
  · rename_i hover
    obtain hnone : b.jumpInputs k = [] := by
      by_contra hne
      exact hover ⟨hne, hmoved⟩
    rw [hnone, widthOf_nil]

/-- An entry knows its height unless it is moved on top of the inputs of a jump. -/
theorem InPlace.height_iff (hplace : b.InPlace k S entry) :
    (b.value entry).slot?.map StackSlot.height = some (b.widthOf S) ↔
      ¬ b.OverJumpInputs k entry := by
  obtain ⟨slot, hslot, -, hheight⟩ := hplace
  rw [← uncounted_eq_zero, hslot, Option.map_some, Option.some.injEq]
  omega

theorem foldr_max_le {l : List Nat} : l.foldr max 0 ≤ n ↔ ∀ x ∈ l, x ≤ n := by
  induction l with
  | nil => simp
  | cons x l ih => rw [List.foldr_cons, Nat.max_le, ih, List.forall_mem_cons]

theorem stackHeight_le : b.stackHeight ≤ n ↔
    ∀ k ∈ b.blocks, ∀ x ∈ b.stackTrace [] (b.block k).instructions, b.widthOf x.2 ≤ n := by
  simp only [stackHeight, foldr_max_le, List.forall_mem_map, List.mem_flatMap, Table.mem_indices]
  constructor
  · exact fun hall k hk x hx => hall x ⟨k, hk, hx⟩
  · rintro hall x ⟨k, hk, hx⟩
    exact hall k hk x hx

theorem reach_le : b.reach k S is ≤ n ↔ ∀ x ∈ b.stackTrace S is, b.counted k x ≤ n := by
  rw [reach, foldr_max_le, List.forall_mem_map]

theorem countedHeight_le : b.countedHeight ≤ n ↔
    ∀ k ∈ b.blocks, b.reach k [] (b.block k).instructions ≤ n := by
  rw [countedHeight, foldr_max_le, List.forall_mem_map]
  exact forall_congr' fun k => by rw [Table.mem_indices]

theorem counted_of_left {x : InsnId × List ValueId}
    (hleft : (b.instruction x.1).left = some entry) :
    b.counted k x = b.widthOf x.2 - b.uncounted k entry := by
  rw [counted, hleft, Option.map_some, Option.getD_some]

theorem counted_le (b : Body) (k : BlockId) (x : InsnId × List ValueId) :
    b.counted k x ≤ b.widthOf x.2 := by
  unfold counted
  cases (b.instruction x.1).left with
  | none => exact Nat.zero_le _
  | some entry => exact Nat.sub_le ..

theorem reach_append (hrun : b.stackRun S is = some T) (js : List InsnId) :
    b.reach k S (is ++ js) = max (b.reach k S is) (b.reach k T js) := by
  refine eq_of_forall_ge_iff fun n => ?_
  rw [Nat.max_le, reach_le, reach_le, reach_le, stackTrace_append hrun, List.forall_mem_append]

/-- A stack grows only where something is left on it. -/
theorem widthOf_le_of_left (hS : b.widthOf S ≤ n)
    (hleft : ∀ x ∈ b.stackTrace S is, ∀ entry ∈ (b.instruction x.1).left, b.widthOf x.2 ≤ n) :
    ∀ x ∈ b.stackTrace S is, b.widthOf x.2 ≤ n := by
  induction is generalizing S with
  | nil => exact fun _ hx => absurd hx List.not_mem_nil
  | cons i is ih =>
    simp only [stackTrace] at hleft ⊢
    cases hstep : b.stackStep S i with
    | none => exact fun _ hx => absurd hx List.not_mem_nil
    | some T =>
      simp only [hstep] at hleft
      obtain ⟨hfirst, hrest⟩ := List.forall_mem_cons.1 hleft
      -- an instruction that leaves nothing can only lower the stack
      have hT : b.widthOf T ≤ n := by
        cases hentry : (b.instruction i).left with
        | some entry => exact hfirst entry hentry
        | none =>
          unfold stackStep at hstep
          split at hstep
          · rw [hentry] at hstep
            rw [← Option.some.inj hstep]
            exact (b.widthOf_drop_le _ S).trans hS
          · simp at hstep
      exact List.forall_mem_cons.2 ⟨hT, ih hT hrest⟩

/-! ### Parts of a block -/

/-- What a list of instructions does to a stack: what is there in the end, that all entries are in
place, and how high the stack is counted. -/
structure Passes (f : Body) (k : BlockId) (S : List ValueId) (is : List InsnId) (T : List ValueId)
    (top : Nat) : Prop where
  run : f.stackRun S is = some T
  inPlace : ∀ x ∈ f.stackTrace S is, ∀ entry ∈ (f.instruction x.1).left, f.InPlace k x.2.tail entry
  reach : f.reach k S is = top

theorem Passes.nil (f : Body) (k : BlockId) (S : List ValueId) : Passes f k S [] S 0 :=
  ⟨rfl, fun _ hx => absurd hx List.not_mem_nil, rfl⟩

theorem Passes.append (h : Passes f k S is T top) (h' : Passes f k T js U top') :
    Passes f k S (is ++ js) U (max top top') := by
  refine ⟨?_, ?_, ?_⟩
  · rw [stackRun_append, h.run]
    exact h'.run
  · rw [stackTrace_append h.run js]
    exact List.forall_mem_append.2 ⟨h.inPlace, h'.inPlace⟩
  · rw [reach_append h.run, h.reach, h'.reach]

/-- An instruction that finds what it takes and leaves an entry. -/
theorem Passes.leaving (htaken : (f.instruction i).taken = vs)
    (hleft : (f.instruction i).left = some entry) (hplace : f.InPlace k S entry) :
    Passes f k (vs.reverse ++ S) [i] (entry :: S)
      (f.widthOf (entry :: S) - f.uncounted k entry) := by
  have hstep : f.stackStep (vs.reverse ++ S) i = some (entry :: S) := by
    rw [stackStep_of_taken htaken, hleft]
    rfl
  refine ⟨?_, ?_, ?_⟩
  · simp only [stackRun, hstep, Option.bind_some]
  · simp only [stackTrace, hstep, List.forall_mem_singleton, hleft]
    intro e he
    rw [← Option.some.inj he]
    exact hplace
  · simp only [Body.reach, stackTrace, hstep, List.map_cons, List.map_nil, List.foldr_cons,
      List.foldr_nil, Nat.max_zero]
    exact counted_of_left hleft

/-- An instruction that finds what it takes and leaves nothing. -/
theorem Passes.taking (htaken : (f.instruction i).taken = vs)
    (hleft : (f.instruction i).left = none) (k : BlockId) (S : List ValueId) :
    Passes f k (vs.reverse ++ S) [i] S 0 := by
  have hstep : f.stackStep (vs.reverse ++ S) i = some S := by
    rw [stackStep_of_taken htaken, hleft]
    rfl
  refine ⟨?_, ?_, ?_⟩
  · simp only [stackRun, hstep, Option.bind_some]
  · simp only [stackTrace, hstep, List.forall_mem_singleton, hleft]
    exact fun _ he => absurd he (Option.not_mem_none _)
  · simp [Body.reach, stackTrace, hstep, counted, hleft]

/-- A stretch of instructions at a point where another one leaves the stack as it is. -/
theorem Passes.insert (h : Passes f k S (is ++ js) T top) :
    ∃ U, f.stackRun U js = some T ∧
      ∀ {added : List InsnId} {top' : Nat}, Passes f k U added U top' →
        Passes f k S (is ++ added ++ js) T (max top top') := by
  have hrun := h.run
  rw [stackRun_append] at hrun
  obtain ⟨U, hU, hT⟩ := Option.bind_eq_some_iff.1 hrun
  have hplace := h.inPlace
  rw [stackTrace_append hU] at hplace
  obtain ⟨hfront, hback⟩ := List.forall_mem_append.1 hplace
  refine ⟨U, hT, fun {added top'} h' => ?_⟩
  have hmiddle : Passes f k S (is ++ added) U (max (f.reach k S is) top') :=
    .append ⟨hU, hfront, rfl⟩ h'
  have hall := hmiddle.append ⟨hT, hback, rfl⟩
  have htop : max (max (f.reach k S is) top') (f.reach k U js) = max top top' := by
    rw [← h.reach, reach_append hU]
    omega
  rw [htop] at hall
  exact hall

end Body

namespace StackCoding

open Body

variable {c : StackCoding} {b f : Body} {i j : InsnId} {v entry : ValueId} {k : BlockId}
  {h n below : Nat} {line : Option UInt32} {S vs es : List ValueId} {is js : List InsnId}

theorem StandsFor.inPlace {type : DeclaredType ClassId} (hs : StandsFor f h type entry)
    (hheight : h + f.uncounted k entry = f.widthOf S) : f.InPlace k S entry := by
  obtain ⟨t, hslot, hwidth⟩ := hs.slot
  exact ⟨⟨h, t⟩, hslot, by rw [hs.type_eq, hwidth], hheight⟩

theorem StandsFor.isPhi {type : DeclaredType ClassId} (hs : StandsFor f h type entry) :
    (f.value entry).isPhi = false := by
  obtain ⟨t, hslot, -⟩ := hs.slot
  unfold Value.slot? at hslot
  split at hslot
  · rename_i ho
    simp [Value.isPhi, ho]
  · simp at hslot

theorem StandsFor.widthOf_cons {type : DeclaredType ClassId} (hs : StandsFor f h type entry)
    (S : List ValueId) : f.widthOf (entry :: S) = f.widthOf S + width type := by
  rw [Body.widthOf_cons, hs.type_eq, Nat.add_comm]

theorem taken_pushing (c : StackCoding) (b : Body) (k : BlockId) (line : Option UInt32)
    (v entry : ValueId) : (c.pushing b k line v entry).taken = [] := by
  unfold pushing
  cases c.constant? b v <;> rfl

theorem left_pushing (c : StackCoding) (b : Body) (k : BlockId) (line : Option UInt32)
    (v entry : ValueId) : (c.pushing b k line v entry).left = some entry := by
  unfold pushing
  cases c.constant? b v <;> rfl

theorem Pushed.left (hp : Pushed c b f k line h v entry j) :
    (f.instruction j).left = some entry := by
  rw [hp.instruction, left_pushing]

theorem Pushed.passes (hp : Pushed c b f k line h v entry j)
    (hheight : h + f.uncounted k entry = f.widthOf S) :
    Passes f k S [j] (entry :: S) (h + width (b.value v).type) := by
  have htaken : (f.instruction j).taken = [] := by rw [hp.instruction, taken_pushing]
  have htop : f.widthOf (entry :: S) - f.uncounted k entry = h + width (b.value v).type := by
    rw [hp.entry.widthOf_cons]
    omega
  exact htop ▸ Passes.leaving htaken hp.left (hp.entry.inPlace hheight)

/-- The heights of values that are pushed one after the other add up. -/
theorem Pushes.passes (hp : Pushes c b f k line h vs es js) (hheight : h = f.widthOf S)
    (hcounted : ∀ j ∈ js, ∀ entry ∈ (f.instruction j).left, f.uncounted k entry = 0) :
    ∃ top, Passes f k S js (es.reverse ++ S) top ∧ max h top = h + b.widthOf vs := by
  induction hp generalizing S with
  | nil => exact ⟨0, Passes.nil f k S, Nat.max_zero _⟩
  | @cons h v entry j vs es js first _ ih =>
    obtain ⟨hj, hjs⟩ := List.forall_mem_cons.1 hcounted
    have hwidth := first.entry.widthOf_cons S
    obtain ⟨top, hpasses, htop⟩ := ih (S := entry :: S) (by rw [hwidth, hheight]) hjs
    have hfirst := first.passes (S := S) (by rw [hj entry first.left, hheight, Nat.add_zero])
    refine ⟨max (h + width (b.value v).type) top, ?_, ?_⟩
    · rw [List.reverse_cons, List.append_assoc]
      exact hfirst.append hpasses
    · rw [Body.widthOf_cons]
      omega

theorem taken_taking (b : Body) (k : BlockId) (line : Option UInt32) (v entry : ValueId) :
    (taking b k line v entry).taken = [entry] := by
  unfold taking
  split <;> rfl

theorem left_taking (b : Body) (k : BlockId) (line : Option UInt32) (v entry : ValueId) :
    (taking b k line v entry).left = none := by
  unfold taking
  split <;> rfl

theorem Becomes.passes (hi : Becomes c b f k i is)
    (hop : (b.instruction i).operation ∉ [.load, .store, .pop])
    (hcounted : ∀ j ∈ is, ∀ entry ∈ (f.instruction j).left, f.uncounted k entry = 0) :
    Passes f k [] is [] (c.room b (b.instruction i)) := by
  -- arguments and dropped instructions leave no code on the stack
  cases hi with
  | argument operation _ instruction =>
    have hroom : c.room b (b.instruction i) = 0 := by simp [room, operation]
    rw [hroom]
    exact Passes.taking (by rw [instruction, Instruction.taken_of_argument operation])
      (by rw [instruction, Instruction.left_of_argument operation]) k []
  | dropped _ dropped =>
    have hroom : c.room b (b.instruction i) = 0 := by simp [room, dropped]
    rw [hroom]
    exact Passes.nil f k []
  | @effect es js operation undropped output pushes _ instruction =>
    have hroom : c.room b (b.instruction i) = b.widthOf (b.instruction i).inputs := by
      simp [room, operation, undropped, output]
    have htaken : (f.instruction i).taken = es := by
      rw [instruction]
      exact Instruction.taken_of_plain hop operation
    have hleft : (f.instruction i).left = none := by
      rw [instruction, ← output]
      exact Instruction.left_of_plain hop operation
    -- the operands are pushed, and the instruction takes all of them
    obtain ⟨top, hpushes, htop⟩ := pushes.passes (S := []) rfl (List.forall_mem_append.1 hcounted).1
    have hpasses := hpushes.append (Passes.taking htaken hleft k [])
    rw [hroom]
    rwa [show max top 0 = b.widthOf (b.instruction i).inputs by omega] at hpasses
  | @result v entry es js j operation undropped output pushes _ instruction stands _ _ taken =>
    have hroom : c.room b (b.instruction i) =
        max (b.widthOf (b.instruction i).inputs) (width (b.value v).type) := by
      simp [room, operation, undropped, output]
    have htaken : (f.instruction i).taken = es := by
      rw [instruction]
      exact Instruction.taken_of_plain hop operation
    have hleft : (f.instruction i).left = some entry := by
      rw [instruction]
      exact Instruction.left_of_plain hop operation
    obtain ⟨hjs, hrest⟩ := List.forall_mem_append.1 hcounted
    have hentry : f.uncounted k entry = 0 := hrest i List.mem_cons_self entry hleft
    obtain ⟨top, hpushes, htop⟩ := pushes.passes (S := []) rfl hjs
    -- the result takes the place of the operands, and its store takes it away
    have hmade : Passes f k (es.reverse ++ []) [i] [entry] (width (b.value v).type) := by
      have hleaving := Passes.leaving (S := []) htaken hleft (stands.inPlace (by rw [hentry]; rfl))
      rwa [hentry, stands.widthOf_cons, widthOf_nil, Nat.zero_add, Nat.sub_zero] at hleaving
    have hgone : Passes f k [entry] [j] [] 0 :=
      Passes.taking (by rw [taken, taken_taking]) (by rw [taken, left_taking]) k []
    have hpasses := hpushes.append (hmade.append hgone)
    rw [hroom]
    rwa [show max top (max (width (b.value v).type) 0) =
      max (b.widthOf (b.instruction i).inputs) (width (b.value v).type) by omega] at hpasses

/-- How high the stack gets for some instructions. -/
def roomFor (c : StackCoding) (b : Body) (is : List InsnId) : Nat :=
  (is.map fun i => c.room b (b.instruction i)).foldr max 0

theorem roomFor_le : c.roomFor b is ≤ n ↔ ∀ i ∈ is, c.room b (b.instruction i) ≤ n := by
  rw [roomFor, foldr_max_le, List.forall_mem_map]

theorem Laid.passes (hl : Laid c b f k is js)
    (hop : ∀ i ∈ is, (b.instruction i).operation ∉ [.load, .store, .pop])
    (hcounted : ∀ j ∈ js, ∀ entry ∈ (f.instruction j).left, f.uncounted k entry = 0) :
    Passes f k [] js [] (c.roomFor b is) := by
  induction hl with
  | nil => exact Passes.nil f k []
  | cons first _ ih =>
    obtain ⟨hfirst, hothers⟩ := List.forall_mem_cons.1 hop
    obtain ⟨hcounted, hrest⟩ := List.forall_mem_append.1 hcounted
    exact (first.passes hfirst hcounted).append (ih hothers hrest)

/-- Whatever an instruction stores when it is converted is its output. -/
theorem Becomes.stores (hi : Becomes c b f k i is)
    (hop : (b.instruction i).operation ∉ [.load, .store, .pop]) :
    ∀ j ∈ is, ∀ v, f.Stores j v → (b.instruction i).output = some v := by
  -- the instruction itself is none of the new ones
  have hself : ∀ {v}, (f.instruction i).operation = (b.instruction i).operation → ¬ f.Stores i v :=
    fun hsame hs => hop (by simp [← hsame, hs.1])
  have hpushes : ∀ {es js}, Pushes c b f k (b.instruction i).line 0 (b.instruction i).inputs es js →
      ∀ j ∈ js, ∀ v, ¬ f.Stores j v := by
    intro es js pushes j hj v
    obtain ⟨w, -, n, entry, hpushed⟩ := pushes.pushed j hj
    exact hpushed.not_stores v
  intro j hj v hs
  cases hi with
  | argument _ _ instruction =>
    rw [List.mem_singleton.1 hj] at hs
    exact absurd hs (hself (by rw [instruction]))
  | dropped => exact absurd hj List.not_mem_nil
  | effect _ _ _ pushes _ instruction =>
    rcases List.mem_append.1 hj with hj | hj
    · exact absurd hs (hpushes pushes j hj v)
    · rw [List.mem_singleton.1 hj] at hs
      exact absurd hs (hself (by rw [instruction]))
  | result _ _ output pushes _ instruction _ _ _ taken =>
    rcases List.mem_append.1 hj with hj | hj
    · exact absurd hs (hpushes pushes j hj v)
    · rcases List.mem_pair.1 hj with rfl | rfl
      · exact absurd hs (hself (by rw [instruction]))
      · have hout := hs.2
        rw [taken] at hout
        rw [output, (of_output_taking hout).1]

theorem Laid.stores (hl : Laid c b f k is js)
    (hop : ∀ i ∈ is, (b.instruction i).operation ∉ [.load, .store, .pop]) :
    ∀ j ∈ js, ∀ v, f.Stores j v → ∃ i, (b.instruction i).output = some v := by
  induction hl with
  | nil => exact fun _ hj => absurd hj List.not_mem_nil
  | @cons i _ _ _ first _ ih =>
    obtain ⟨hfirst, hothers⟩ := List.forall_mem_cons.1 hop
    exact List.forall_mem_append.2
      ⟨fun j hj v hs => ⟨i, first.stores hfirst j hj v hs⟩, ih hothers⟩

theorem Becomes.filter (hi : Becomes c b f k i is) (hmem : i ∈ b.instructions) :
    is.filter (· ∈ b.instructions) = [i].filter fun i => !c.isDropped b (b.instruction i) := by
  have hnew : ∀ {js : List InsnId}, (∀ j ∈ js, j ∈ f.instructions ∧ j ∉ b.instructions) →
      js.filter (· ∈ b.instructions) = [] :=
    fun hjs => List.filter_eq_nil_iff.2 fun j hj => by simp [(hjs j hj).2]
  cases hi with
  | argument operation =>
    have hconstant : (b.instruction i).operation.isConstant = false := by
      unfold Operation.isArgument at operation
      split at operation
      · rename_i hindex
        rw [hindex]
        rfl
      · simp at operation
    simp [hmem, isDropped, hconstant]
  | dropped _ dropped => simp [dropped]
  | effect _ undropped _ pushes => simp [hnew pushes.mem, hmem, undropped]
  | result _ undropped _ pushes _ _ _ new => simp [hnew pushes.mem, hmem, undropped, new]

theorem Laid.filter (hl : Laid c b f k is js) (his : ∀ i ∈ is, i ∈ b.instructions) :
    js.filter (· ∈ b.instructions) = is.filter fun i => !c.isDropped b (b.instruction i) := by
  induction hl with
  | nil => rfl
  | @cons i is rest js first _ ih =>
    obtain ⟨hi, hrest⟩ := List.forall_mem_cons.1 his
    rw [List.filter_append, first.filter hi, ih hrest, ← List.filter_append, List.singleton_append]

end StackCoding

namespace PhiMoves

open StackCoding Body

variable {c : StackCoding} {b f : Body} {k : BlockId} {line : Option UInt32} {h below : Nat}
  {ms : List PhiMove} {is : List InsnId} {S : List ValueId} {entry : ValueId} {j s : InsnId}

/-- Moves on top of something that is not counted. -/
theorem MoveRun.passes (hm : MoveRun c b f k line h ms is) (hheight : h + below = f.widthOf S)
    (hcounted : ∀ j ∈ is, ∀ entry ∈ (f.instruction j).left, f.uncounted k entry = below) :
    ∃ top, Passes f k S is S top ∧ max h top = h + b.widthOf (ms.map PhiMove.operand) := by
  induction hm generalizing S with
  | nil => exact ⟨0, Passes.nil f k S, Nat.max_zero _⟩
  | @cons h m ms entry j s is pushed _ new mem stored ih =>
    obtain ⟨hj, hothers⟩ := List.forall_mem_append.1 hcounted
    obtain ⟨hj, his⟩ := List.forall_mem_cons.1 hj
    have hwidth := pushed.entry.widthOf_cons S
    have hfirst := pushed.passes (S := S) (by rw [hj entry pushed.left, hheight])
    obtain ⟨top, hmiddle, htop⟩ := ih (S := entry :: S) (by rw [hwidth]; omega) his
    have htaken : (f.instruction s).taken = [entry] := by rw [stored]; rfl
    have hlast : Passes f k (entry :: S) [s] S 0 :=
      Passes.taking htaken (by rw [stored]; rfl) k S
    refine ⟨_, (hfirst.append hmiddle).append hlast, ?_⟩
    rw [List.map_cons, Body.widthOf_cons]
    omega

/-- Every entry that moves push is stored into the phi of its move. -/
theorem MoveRun.stored_of_left (hm : MoveRun c b f k line h ms is) (hj : j ∈ is)
    (hleft : (f.instruction j).left = some entry) :
    ∃ s ∈ is, ∃ m ∈ ms, f.instruction s = ⟨.store, [entry], some m.phi, k, line⟩ := by
  induction hm with
  | nil => exact absurd hj List.not_mem_nil
  | @cons h m ms entry' j' s is pushed _ _ _ stored ih =>
    rcases List.mem_append.1 hj with hj | hj
    · rcases List.mem_cons.1 hj with rfl | hj
      · obtain rfl : entry' = entry := Option.some.inj (pushed.left.symm.trans hleft)
        exact ⟨s, by simp, m, List.mem_cons_self, stored⟩
      · obtain ⟨s', hs', m', hm', hstored⟩ := ih hj
        exact ⟨s', by simp [hs'], m', List.mem_cons_of_mem _ hm', hstored⟩
    · -- a store leaves nothing
      rw [List.mem_singleton.1 hj, stored] at hleft
      simp [Instruction.left] at hleft

/-- Every entry that moves store has been pushed by them. -/
theorem MoveRun.pushed_of_store (hm : MoveRun c b f k line h ms is) (hs : s ∈ is)
    (hop : (f.instruction s).operation = .store) (hinputs : (f.instruction s).inputs = [entry]) :
    ∃ j ∈ is, ∃ v n, Pushed c b f k line n v entry j := by
  induction hm with
  | nil => exact absurd hs List.not_mem_nil
  | @cons h m ms entry' j s' is pushed _ _ _ stored ih =>
    rcases List.mem_append.1 hs with hs | hs
    · rcases List.mem_cons.1 hs with rfl | hs
      · -- a push is no store
        rw [pushed.instruction] at hop
        unfold pushing at hop
        split at hop <;> simp at hop
      · obtain ⟨j', hj', hpushed⟩ := ih hs
        exact ⟨j', by simp [hj'], hpushed⟩
    · rw [List.mem_singleton.1 hs, stored] at hinputs
      obtain rfl : entry' = entry := by simpa using hinputs
      exact ⟨j, by simp, m.operand, h, pushed⟩

end PhiMoves

/-! ### All blocks of stack code -/

namespace Body

open StackCoding PhiMoves

variable {c : StackCoding} {b f : Body} {k : BlockId} {moves : List PhiMove}
  {front added : List InsnId} {jump : Option InsnId} {j : InsnId} {entry : ValueId}

/-- What is on the stack before the jump of a block are the inputs of the jump. -/
theorem Arranged.widthOf_eq (ha : Arranged c b f k moves front added jump) {U : List ValueId}
    (hU : f.stackRun U jump.toList = some []) : f.widthOf U = f.widthOf (f.jumpInputs k) := by
  unfold jumpInputs
  rw [ha.jump_eq]
  cases hjump : jump with
  | none =>
    rw [hjump] at hU
    rw [Option.some.inj hU]
    rfl
  | some i =>
    obtain ⟨-, hgoto⟩ := Option.filter_eq_some_iff.1 (ha.jump_eq.trans hjump)
    -- the jump takes its inputs and leaves nothing, so there was nothing else on the stack
    have htaken : (f.instruction i).taken = (f.instruction i).inputs := by
      unfold Instruction.taken
      split <;> simp_all [Operation.isGoto]
    rw [hjump, Option.toList_some] at hU
    simp only [stackRun, stackStep, htaken] at hU
    split at hU
    · rename_i htop
      obtain ⟨rest, rfl⟩ := htop
      rw [← List.length_reverse, List.drop_left] at hU
      simp only [Option.bind_some, Option.some.injEq, List.append_eq_nil_iff] at hU
      rw [hU.2, List.append_nil, widthOf_reverse]
      rfl
    · simp at hU

/-- Outputs are no phis, and do not become any. -/
theorem Retains.isPhi_of_output (hr : b.Retains f) (hb : b.WellFormed) {i : InsnId} {v : ValueId}
    (hout : (b.instruction i).output = some v) : (f.value v).isPhi = false := by
  rcases hr.made v i (hb.origin_of_output i v hout).2 with ho | ⟨j, -, ho, -⟩ <;>
    simp [Value.isPhi, ho]

/-- What moves push is stored into phis. -/
theorem Arranged.isMoved (ha : Arranged c b f k moves front added jump) (hr : b.Retains f)
    (hj : j ∈ added) (hleft : (f.instruction j).left = some entry) : f.IsMoved k entry := by
  obtain ⟨line, hrun⟩ := ha.run
  obtain ⟨s, hs, m, hm, hstored⟩ := hrun.stored_of_left hj hleft
  refine ⟨s, by simp [ha.list, hs], ?_, ?_, ?_⟩
  · rw [hstored]
  · rw [hstored]
  · rw [hstored]
    exact hr.isPhi (isPhi_of_operand (ha.operand m hm))

/-- What the other instructions leave is not stored into a phi, since moves store only what they
have pushed themselves. -/
theorem Arranged.not_isMoved (ha : Arranged c b f k moves front added jump) (hb : b.WellFormed)
    (hr : b.Retains f) (hk : k ∈ f.blocks) (hf : f.SingleDefinition)
    (hop : ∀ i ∈ (b.block k).instructions, (b.instruction i).operation ∉ [.load, .store, .pop])
    (hj : j ∈ front ++ jump.toList) (hleft : (f.instruction j).left = some entry) :
    ¬ f.IsMoved k entry := by
  rintro ⟨s, hs, hstore, hinputs, hphi⟩
  obtain ⟨p, hp, hphi⟩ := (Option.any_eq_true ..).1 hphi
  obtain ⟨line, hrun⟩ := ha.run
  have hnodup := (List.nodup_flatMap.1 hf.nodup).1 k (Table.mem_indices.2 hk)
  rw [ha.list] at hs hnodup
  have hplaced : ∀ i ∈ front ++ added ++ jump.toList, i ∈ f.placed := by
    intro i hi
    rw [← ha.list] at hi
    exact mem_placed.2 ⟨k, hk, hi⟩
  by_cases hadded : s ∈ added
  · -- the entry would have been pushed twice
    obtain ⟨j', hj', v, n, hpushed⟩ := hrun.pushed_of_store hadded hstore hinputs
    have hdefinition := hf.definition j' (hplaced j' (by simp [hj'])) entry
      (Instruction.output_of_left hpushed.left) hpushed.entry.isPhi
    have hlist : j ∈ front ++ added ++ jump.toList := by
      simp only [List.mem_append] at hj ⊢
      exact hj.imp_left Or.inl
    have hdefinition' := hf.definition j (hplaced j hlist) entry
      (Instruction.output_of_left hleft) hpushed.entry.isPhi
    obtain rfl : j' = j := Option.some.inj (hdefinition.symm.trans hdefinition')
    obtain ⟨hfront, -, hback⟩ := List.nodup_append.1 hnodup
    rcases List.mem_append.1 hj with hj | hj
    · exact (List.nodup_append.1 hfront).2.2 j' hj j' hj' rfl
    · exact hback j' (List.mem_append_right _ hj') j' hj rfl
  · -- what is stored otherwise is an output, and no phi
    have hlaid : s ∈ front ++ jump.toList := by
      simp only [List.mem_append] at hs ⊢
      tauto
    obtain ⟨i, hout⟩ := ha.laid.stores hop s hlaid p ⟨hstore, hp⟩
    have hnot := hr.isPhi_of_output hb hout
    rw [hphi] at hnot
    exact Bool.noConfusion hnot

/-- **A block of stack code** leaves the stack as it finds it. -/
theorem Arranged.passes (ha : Arranged c b f k moves front added jump) (hb : b.WellFormed)
    (hr : b.Retains f) (hk : k ∈ f.blocks) (hf : f.SingleDefinition)
    (hop : ∀ i ∈ (b.block k).instructions, (b.instruction i).operation ∉ [.load, .store, .pop]) :
    Passes f k [] (f.block k).instructions []
      (max (c.roomFor b (b.block k).instructions) (b.widthOf (moves.map PhiMove.operand))) := by
  obtain ⟨line, hrun⟩ := ha.run
  have hlaid := ha.laid.passes hop fun j hj entry hentry =>
    uncounted_eq_zero.2 fun hover => ha.not_isMoved hb hr hk hf hop hj hentry hover.2
  obtain ⟨U, hU, hinsert⟩ := hlaid.insert
  -- the moves are made on top of what the jump reads
  have hheight : 0 + f.widthOf (f.jumpInputs k) = f.widthOf U := by
    rw [Nat.zero_add, ha.widthOf_eq hU]
  obtain ⟨top, hpasses, htop⟩ := hrun.passes hheight fun j hj entry hentry =>
    uncounted_of_isMoved (ha.isMoved hr hj hentry)
  obtain rfl : top = b.widthOf (moves.map PhiMove.operand) := by omega
  rw [ha.list]
  exact hinsert hpasses

theorem Arranged.filter (ha : Arranged c b f k moves front added jump) (hb : b.WellFormed) :
    (f.block k).instructions.filter (· ∈ b.instructions) =
      (b.block k).instructions.filter fun i => !c.isDropped b (b.instruction i) := by
  obtain ⟨line, hrun⟩ := ha.run
  have hadded : added.filter (· ∈ b.instructions) = [] :=
    List.filter_eq_nil_iff.2 fun i hi => by simp [(hrun.mem i hi).2]
  rw [← ha.laid.filter fun i hi => ((hb.mem_instructions k i).1 hi).1, ha.list]
  simp only [List.filter_append, hadded, List.append_nil]

theorem countedHeight_le_stackHeight (b : Body) : b.countedHeight ≤ b.stackHeight :=
  countedHeight_le.2 fun k hk => reach_le.2 fun x hx =>
    (b.counted_le k x).trans (stackHeight_le.1 (Nat.le_refl _) k hk x hx)

/-- What is counted reaches as high as the stack if the moves on top of inputs of jumps do not reach
higher than that. -/
theorem countedHeight_eq_stackHeight_iff (b : Body) : b.countedHeight = b.stackHeight ↔
    ∀ k ∈ b.blocks, ∀ x ∈ b.stackTrace [] (b.block k).instructions,
      ∀ entry ∈ (b.instruction x.1).left, b.OverJumpInputs k entry →
        b.widthOf x.2 ≤ b.countedHeight := by
  constructor
  · intro heq k hk x hx _ _ _
    exact heq ▸ stackHeight_le.1 (Nat.le_refl _) k hk x hx
  · intro hover
    refine Nat.le_antisymm b.countedHeight_le_stackHeight (stackHeight_le.2 fun k hk => ?_)
    refine widthOf_le_of_left (Nat.zero_le _) fun x hx entry hentry => ?_
    by_cases hmoved : b.OverJumpInputs k entry
    · exact hover k hk x hx entry hentry hmoved
    · have hcounted := reach_le.1 (countedHeight_le.1 (Nat.le_refl _) k hk) x hx
      rwa [counted_of_left hentry, uncounted_eq_zero.2 hmoved, Nat.sub_zero] at hcounted

/-- **Stack code keeps to the stack.** Every block begins and ends with an empty stack, each
instruction finds what it takes, and each entry is in its place: its height is the total width of
what is below it, but for the inputs of the jump where it is moved on top of them. The height that
is reserved is the largest one counted in this way. It is the one that is reached unless such moves
reach higher. -/
theorem toStackCode_stackRun {b : Body} (hb : b.Built)
    (hplain : ∀ i ∈ b.instructions, (b.instruction i).operation ∉ [.load, .store, .pop])
    {c : StackCoding} {a a' : Locals} {m : Lowering}
    (hcode : b.toStackCode c a = ((m, a'), none)) :
    (∀ k ∈ m.body.blocks,
      m.body.stackRun [] (m.body.block k).instructions = some [] ∧
      (∀ x ∈ m.body.stackTrace [] (m.body.block k).instructions,
        ∀ entry ∈ (m.body.instruction x.1).left, m.body.InPlace k x.2.tail entry ∧
          ((m.body.value entry).slot?.map StackSlot.height = some (m.body.widthOf x.2.tail) ↔
            ¬ m.body.OverJumpInputs k entry)) ∧
      (∀ j ∈ (m.body.block k).instructions,
        Written c b m.body k (m.body.block k).instructions j) ∧
      (m.body.block k).instructions.filter (· ∈ b.instructions) =
        (b.block k).instructions.filter fun i => !c.isDropped b (b.instruction i)) ∧
    m.maxStack = m.body.countedHeight ∧ m.maxStack ≤ m.body.stackHeight ∧
    (m.maxStack = m.body.stackHeight ↔
      ∀ k ∈ m.body.blocks, ∀ x ∈ m.body.stackTrace [] (m.body.block k).instructions,
        ∀ entry ∈ (m.body.instruction x.1).left, m.body.OverJumpInputs k entry →
          m.body.widthOf x.2 ≤ m.maxStack) := by
  have hw := hb.wellFormed
  have hf := (toStackCode_tidy hb hcode).singleDefinition
  obtain ⟨-, hretains, moves, harranged, hmax⟩ :=
    toStackCode_arranged hw (noMoves_of_plain hplain) hcode
  have hop : ∀ k, ∀ i ∈ (b.block k).instructions,
      (b.instruction i).operation ∉ [.load, .store, .pop] :=
    fun k i hi => hplain i ((hw.mem_instructions k i).1 hi).1
  -- each block begins and ends with an empty stack, and reaches what was reserved for it
  have hpasses : ∀ k ∈ m.body.blocks, Passes m.body k [] (m.body.block k).instructions []
      (max (c.roomFor b (b.block k).instructions) (b.widthOf ((moves k).map PhiMove.operand))) := by
    intro k hk
    obtain ⟨front, added, jump, ha⟩ := harranged k ((hretains.mem_blocks k).1 hk)
    exact ha.passes hw hretains hk hf (hop k)
  -- what is reserved is the largest of these, so it is what is counted
  have hcounted : m.maxStack = m.body.countedHeight := by
    refine eq_of_forall_ge_iff fun n => ?_
    rw [hmax, countedHeight_le]
    refine forall_congr' fun k => ?_
    rw [hretains.mem_blocks]
    refine forall_congr' fun hk => ?_
    rw [(hpasses k ((hretains.mem_blocks k).2 hk)).reach, Nat.max_le, roomFor_le]
  refine ⟨fun k hk => ?_, hcounted, ?_, ?_⟩
  · obtain ⟨front, added, jump, ha⟩ := harranged k ((hretains.mem_blocks k).1 hk)
    refine ⟨(hpasses k hk).run, fun x hx entry hentry => ?_, ha.written hw, ha.filter hw⟩
    have hplace := (hpasses k hk).inPlace x hx entry hentry
    exact ⟨hplace, hplace.height_iff⟩
  · exact hcounted ▸ m.body.countedHeight_le_stackHeight
  · rw [hcounted]
    exact m.body.countedHeight_eq_stackHeight_iff

/-- The numbers of the loop are pushed at heights that have been reserved. -/
theorem toStackCode_stackRun_swapLoop : ∃ a m a',
    (∀ i ∈ swapLoop.instructions, (swapLoop.instruction i).operation ∉ [.load, .store, .pop]) ∧
    Locals.naive {} swapLoop = .ok a ∧ swapLoop.toStackCode ⟨{}, none⟩ a = ((m, a'), none) ∧
    (∀ k ∈ m.body.blocks, ∀ entry, ¬ m.body.OverJumpInputs k entry) ∧
    m.maxStack = 2 ∧ m.body.countedHeight = 2 ∧ m.body.stackHeight = 2 ∧
    m.body.stackRun [] (m.body.block ⟨2⟩).instructions = some [] := by
  have hcheck : (match Locals.naive {} swapLoop with
      | .ok a =>
        match swapLoop.toStackCode ⟨{}, none⟩ a with
        | ((m, _), none) =>
          decide (m.maxStack = 2 ∧ ⟨2⟩ ∈ m.body.blocks.indices ∧
            ∀ k ∈ m.body.blocks.indices, m.body.jumpInputs k = [])
        | _ => false
      | _ => false) = true := by
    cbv
  have hplain : ∀ i ∈ swapLoop.instructions.indices,
      (swapLoop.instruction i).operation ∉ [.load, .store, .pop] := by
    decide +kernel
  split at hcheck
  · rename_i a ha
    split at hcheck
    · rename_i m a' hcode
      obtain ⟨hmax, hblock, hjumps⟩ := of_decide_eq_true hcheck
      have hclear : ∀ k ∈ m.body.blocks, ∀ entry, ¬ m.body.OverJumpInputs k entry :=
        fun k hk entry hover => hover.1 (hjumps k (Table.mem_indices.2 hk))
      obtain ⟨hblocks, hcounted, -, hexact⟩ := toStackCode_stackRun (built_ofSteps _ _)
        (fun i hi => hplain i (Table.mem_indices.2 hi)) hcode
      have hheight := hexact.2 fun k hk _ _ entry _ hover => absurd hover (hclear k hk entry)
      exact ⟨a, m, a', fun i hi => hplain i (Table.mem_indices.2 hi), ha, hcode, hclear, hmax,
        hcounted.symm.trans hmax, hheight.symm.trans hmax,
        (hblocks ⟨2⟩ (Table.mem_indices.1 hblock)).1⟩
    · simp at hcheck
  · simp at hcheck

/-! ### A jump with an input -/

/-- A jump reads a number that is also the operand of a phi. -/
def jumpInput : Body := .ofSteps ⟨0⟩
  [.block, .block, .edge ⟨0⟩ ⟨1⟩,
   .instruction ⟨0⟩ (.constant (.number (.int 1))) [] (some (.field (.base .int))),
   .instruction ⟨0⟩ .goto [⟨0⟩],
   .phi ⟨1⟩ (.field (.base .int)), .operand ⟨1⟩ ⟨0⟩,
   .instruction ⟨1⟩ .ret [⟨1⟩]]

/-- The operand of the phi is pushed on top of the input of the jump, but counted from the bottom of
the stack. -/
theorem maxStack_jumpInput : jumpInput.Built ∧
    (∀ i ∈ jumpInput.instructions, (jumpInput.instruction i).operation ∉ [.load, .store, .pop]) ∧
    ∃ a m a', Locals.naive {} jumpInput = .ok a ∧ jumpInput.toStackCode ⟨{}, none⟩ a =
      ((m, a'), none) ∧
      m.maxStack = 1 ∧ m.body.stackHeight = 2 ∧
      ∃ x ∈ m.body.stackTrace [] (m.body.block ⟨0⟩).instructions,
        ∃ entry ∈ (m.body.instruction x.1).left,
        ((m.body.value entry).slot?.map StackSlot.height = some 0) ∧
          m.body.widthOf x.2.tail = 1 := by
  have hcheck : (match Locals.naive {} jumpInput with
      | .ok a =>
        match jumpInput.toStackCode ⟨{}, none⟩ a with
        | ((m, _), none) =>
          decide (m.maxStack = 1 ∧ m.body.stackHeight = 2 ∧
            ∃ x ∈ m.body.stackTrace [] (m.body.block ⟨0⟩).instructions,
            ∃ entry ∈ (m.body.instruction x.1).left,
              ((m.body.value entry).slot?.map StackSlot.height = some 0) ∧
              m.body.widthOf x.2.tail = 1)
        | _ => false
      | _ => false) = true := by
    decide +kernel
  have hplain : ∀ i ∈ jumpInput.instructions.indices,
      (jumpInput.instruction i).operation ∉ [.load, .store, .pop] := by
    decide +kernel
  split at hcheck
  · rename_i a ha
    split at hcheck
    · rename_i m a' hcode
      exact ⟨built_ofSteps _ _, fun i hi => hplain i (Table.mem_indices.2 hi), a, m, a', ha, hcode,
        of_decide_eq_true hcheck⟩
    · simp at hcheck
  · simp at hcheck

end Body

end JvmLowering
