import JvmLowering.Lowering.Method

/-!
# The steps of lowering

Each step of lowering is a case analysis that ends in a state and perhaps an error. What it can do
is said here once, as a relation with one constructor for each way the step can go, under the
conditions for that way. What a step preserves is then shown by cases on the relation. Each relation
is the graph of its step, so two runs can be compared case by case too.

* `StackCoding.Loads`: an input is refused or pushed;
* `StackCoding.Converts`: an instruction is kept, dropped or converted, or cannot be;
* `StackCoding.ConvertsBlock`: all instructions of a block are converted, or one of them fails;
* `PhiMoves.Moves`: an edge needs no moves, cannot have any, or gets them;
* `PhiMoves.Resolves`: a block has no phis, has phis without moves, or has them replaced.
-/

namespace JvmLowering

/-! ### Stack code -/

namespace StackCoding

/-- Pushing an input. -/
inductive Loads (c : StackCoding) (k : BlockId) (i : InsnId) (line : Option UInt32) (e : Emitter)
    (v : ValueId) (n : Nat) : Emitter × Option Error → Prop
  /-- The input is on the stack, and no constant that can be pushed again. -/
  | refused (onStack : ((e.body.value v).isStack && !e.body.isConstant v) = true) :
      Loads c k i line e v n (e, some (.unexpectedStackValue i v))
  /-- The input is pushed, and the instruction reads the entry in its place. -/
  | pushed (free : ((e.body.value v).isStack && !e.body.isConstant v) = false) :
      Loads c k i line e v n
        ({ (c.pushOperand k line e v).2 with
            body := (c.pushOperand k line e v).2.body.replaceInput i n
              (c.pushOperand k line e v).1 },
          none)

theorem loads (c : StackCoding) (k : BlockId) (i : InsnId) (line : Option UInt32) (e : Emitter)
    (v : ValueId) (n : Nat) : Loads c k i line e v n (c.loadInput k i line e (v, n)) := by
  unfold loadInput
  simp only
  split
  · rename_i onStack
    exact .refused onStack
  · rename_i free
    exact .pushed (Bool.eq_false_iff.2 free)

theorem Loads.eq {c : StackCoding} {k : BlockId} {i : InsnId} {line : Option UInt32} {e : Emitter}
    {v : ValueId} {n : Nat} {outcome : Emitter × Option Error}
    (h : Loads c k i line e v n outcome) :
    c.loadInput k i line e (v, n) = outcome := by
  cases h with
  | refused onStack => simp [loadInput, onStack]
  | pushed free => simp [loadInput, free]

/-- Converting an instruction. -/
inductive Converts (c : StackCoding) (k : BlockId) (e : Emitter) (i : InsnId) (insn : Instruction) :
    Emitter × Option Error → Prop
  /-- Arguments stay as they are. -/
  | argument (isArgument : insn.operation.isArgument = true) :
      Converts c k e i insn (e.place i, none)
  /-- A constant that is pushed where it is used is left out. -/
  | dropped (isArgument : insn.operation.isArgument = false)
      (isDropped : c.isDropped e.body insn = true) :
      Converts c k e i insn (e.report (.constantDropped i), none)
  /-- One of the inputs cannot be pushed. -/
  | refused {loaded : Emitter} {error : Error} (isArgument : insn.operation.isArgument = false)
      (isDropped : c.isDropped e.body insn = false)
      (inputs : attemptAll (c.loadInput k i insn.line) e insn.inputs.zipIdx =
        (loaded, some error)) :
      Converts c k e i insn (loaded, some error)
  /-- The inputs are pushed, and there is no output. -/
  | effect {loaded : Emitter} (isArgument : insn.operation.isArgument = false)
      (isDropped : c.isDropped e.body insn = false)
      (inputs : attemptAll (c.loadInput k i insn.line) e insn.inputs.zipIdx = (loaded, none))
      (output : insn.output = none) :
      Converts c k e i insn ((loaded.popEntries insn.inputs).place i, none)
  /-- The inputs are pushed, but the output is on the stack already. -/
  | misplaced {loaded : Emitter} {v : ValueId} (isArgument : insn.operation.isArgument = false)
      (isDropped : c.isDropped e.body insn = false)
      (inputs : attemptAll (c.loadInput k i insn.line) e insn.inputs.zipIdx = (loaded, none))
      (output : insn.output = some v)
      (onStack : ((loaded.popEntries insn.inputs).body.value v).isStack = true) :
      Converts c k e i insn (loaded.popEntries insn.inputs, some (.unexpectedStackValue i v))
  /-- The inputs are pushed, and the output is popped. -/
  | result {loaded : Emitter} {v : ValueId} (isArgument : insn.operation.isArgument = false)
      (isDropped : c.isDropped e.body insn = false)
      (inputs : attemptAll (c.loadInput k i insn.line) e insn.inputs.zipIdx = (loaded, none))
      (output : insn.output = some v)
      (free : ((loaded.popEntries insn.inputs).body.value v).isStack = false) :
      Converts c k e i insn
        (c.storeOutput k i insn.line (loaded.popEntries insn.inputs) v, none)

theorem converts (c : StackCoding) (k : BlockId) (e : Emitter) (i : InsnId) :
    Converts c k e i (e.body.instruction i) (c.convert k e i) := by
  unfold convert
  simp only
  split
  · rename_i isArgument
    exact .argument isArgument
  rename_i isArgument
  rw [Bool.not_eq_true] at isArgument
  split
  · rename_i isDropped
    exact .dropped isArgument isDropped
  rename_i isDropped
  rw [Bool.not_eq_true] at isDropped
  split
  · rename_i inputs
    exact .refused isArgument isDropped inputs
  rename_i inputs
  split
  · rename_i output
    exact .effect isArgument isDropped inputs output
  rename_i output
  split
  · rename_i onStack
    exact .misplaced isArgument isDropped inputs output onStack
  · rename_i free
    exact .result isArgument isDropped inputs output (Bool.eq_false_iff.2 free)

theorem Converts.eq {c : StackCoding} {k : BlockId} {e : Emitter} {i : InsnId}
    {outcome : Emitter × Option Error} (h : Converts c k e i (e.body.instruction i) outcome) :
    c.convert k e i = outcome := by
  cases h with
  | argument isArgument => simp [convert, isArgument]
  | dropped isArgument isDropped => simp [convert, isArgument, isDropped]
  | refused isArgument isDropped inputs => simp [convert, isArgument, isDropped, inputs]
  | effect isArgument isDropped inputs output =>
    simp [convert, isArgument, isDropped, inputs, output]
  | misplaced isArgument isDropped inputs output onStack =>
    simp [convert, isArgument, isDropped, inputs, output, onStack]
  | result isArgument isDropped inputs output free =>
    simp [convert, isArgument, isDropped, inputs, output, free]

/-- Converting a block. -/
inductive ConvertsBlock (c : StackCoding) (l : Lowering) (k : BlockId) :
    Lowering × Option Error → Prop
  | refused {e : Emitter} {error : Error}
      (run : attemptAll (c.convert k) { l with body := l.body.setInstructions k [] }
        (l.body.block k).instructions = (e, some error)) :
      ConvertsBlock c l k (e.toLowering, some error)
  | converted {e : Emitter}
      (run : attemptAll (c.convert k) { l with body := l.body.setInstructions k [] }
        (l.body.block k).instructions = (e, none)) :
      ConvertsBlock c l k ({ e.toLowering with body := e.body.setInstructions k e.emitted }, none)

theorem convertsBlock (c : StackCoding) (l : Lowering) (k : BlockId) :
    ConvertsBlock c l k (c.convertBlock l k) := by
  unfold convertBlock
  simp only
  split
  · rename_i run
    exact .refused run
  · rename_i run
    exact .converted run

theorem ConvertsBlock.eq {c : StackCoding} {l : Lowering} {k : BlockId}
    {outcome : Lowering × Option Error} (h : ConvertsBlock c l k outcome) :
    c.convertBlock l k = outcome := by
  cases h with
  | refused run => simp [convertBlock, run]
  | converted run => simp [convertBlock, run]

/-- The stack code of all blocks, with the height that was needed reported at the end. -/
theorem insertLoadsAndStores_run {c : StackCoding} {l m : Lowering}
    (h : c.insertLoadsAndStores l = (m, none)) :
    ∃ m₁, attemptAll c.convertBlock l l.body.blocks.indices = (m₁, none) ∧
      m = { m₁ with reports := .stackMeasured m₁.body.method m₁.maxStack :: m₁.reports } := by
  unfold insertLoadsAndStores at h
  split at h
  · simp at h
  · rename_i m₁ hrun
    exact ⟨m₁, hrun, (congrArg Prod.fst h).symm⟩

end StackCoding

/-! ### Phi moves -/

namespace PhiMoves

/-- Adding the moves of an edge. -/
inductive Moves (c : StackCoding) (a : Locals) (k : BlockId) (phis : List ValueId) (l : Lowering)
    (source : BlockId) (position : Nat) : Lowering × Option Error → Prop
  /-- Every operand is where its phi is. -/
  | unmoved (unneeded : onEdge l.body a phis position = []) :
      Moves c a k phis l source position (l, none)
  /-- The predecessor also leads elsewhere. -/
  | critical (needed : onEdge l.body a phis position ≠ [])
      (branches : 1 < (l.body.block source).successors.length) :
      Moves c a k phis l source position (l, some (.criticalEdge source k))
  | moved (needed : onEdge l.body a phis position ≠ [])
      (single : (l.body.block source).successors.length ≤ 1) :
      Moves c a k phis l source position (insert c l source (onEdge l.body a phis position), none)

theorem moves (c : StackCoding) (a : Locals) (k : BlockId) (phis : List ValueId) (l : Lowering)
    (source : BlockId) (position : Nat) :
    Moves c a k phis l source position (insertOnEdge c a k phis l (source, position)) := by
  unfold insertOnEdge
  simp only
  split
  · rename_i unneeded
    exact .unmoved unneeded
  rename_i needed
  split
  · rename_i branches
    exact .critical needed branches
  · rename_i single
    exact .moved needed (Nat.not_lt.1 single)

theorem Moves.eq {c : StackCoding} {a : Locals} {k : BlockId} {phis : List ValueId} {l : Lowering}
    {source : BlockId} {position : Nat} {outcome : Lowering × Option Error}
    (h : Moves c a k phis l source position outcome) :
    insertOnEdge c a k phis l (source, position) = outcome := by
  cases h with
  | unmoved unneeded => simp [insertOnEdge, unneeded]
  | critical needed branches => simp [insertOnEdge, branches]
  | moved needed single => simp [insertOnEdge, Nat.not_lt.2 single]

/-- Replacing the phis of a block. -/
inductive Resolves (c : StackCoding) (l : Lowering) (a : Locals) (k : BlockId) :
    (Lowering × Locals) × Option Error → Prop
  | unphied (phis : (l.body.block k).phis = []) : Resolves c l a k ((l, a), none)
  /-- A phi has too few or too many operands. -/
  | miscounted {error : Error} (phis : (l.body.block k).phis ≠ [])
      (count : miscounted? l.body k = some error) : Resolves c l a k ((l, a), some error)
  /-- An edge cannot have its moves. -/
  | refused {l' : Lowering} {error : Error} (phis : (l.body.block k).phis ≠ [])
      (count : miscounted? l.body k = none)
      (edges : attemptAll (insertOnEdge c a k (l.body.block k).phis) l
        (l.body.block k).predecessors.zipIdx = (l', some error)) :
      Resolves c l a k ((l', a), some error)
  /-- All edges have their moves. The phis let go of their operands and are live in the block. -/
  | resolved {l' : Lowering} (phis : (l.body.block k).phis ≠ [])
      (count : miscounted? l.body k = none)
      (edges : attemptAll (insertOnEdge c a k (l.body.block k).phis) l
        (l.body.block k).predecessors.zipIdx = (l', none)) :
      Resolves c l a k
        (({ l' with body := (l.body.block k).phis.foldl detach l'.body },
          (l.body.block k).phis.foldl (·.addLive k) a), none)

theorem resolves (c : StackCoding) (l : Lowering) (a : Locals) (k : BlockId) :
    Resolves c l a k (resolveBlock c (l, a) k) := by
  unfold resolveBlock
  simp only
  split
  · rename_i phis
    exact .unphied (List.isEmpty_iff.1 phis)
  rename_i phis
  rw [List.isEmpty_iff] at phis
  split
  · rename_i count
    exact .miscounted phis count
  rename_i count
  split
  · rename_i edges
    exact .refused phis count edges
  · rename_i edges
    exact .resolved phis count edges

theorem Resolves.eq {c : StackCoding} {l : Lowering} {a : Locals} {k : BlockId}
    {outcome : (Lowering × Locals) × Option Error} (h : Resolves c l a k outcome) :
    resolveBlock c (l, a) k = outcome := by
  cases h with
  | unphied phis => simp [resolveBlock, phis]
  | miscounted phis count => simp [resolveBlock, phis, count]
  | refused phis count edges => simp [resolveBlock, phis, count, edges]
  | resolved phis count edges => simp [resolveBlock, phis, count, edges]

end PhiMoves

/-- Stack code without an error is written in two passes without one. -/
theorem Body.toStackCode_run {b : Body} {c : StackCoding} {a : Locals} {s : Lowering × Locals}
    (h : b.toStackCode c a = (s, none)) :
    ∃ m, c.insertLoadsAndStores { body := b } = (m, none) ∧ c.insertPhiMoves m a = (s, none) := by
  unfold toStackCode at h
  split at h
  · simp at h
  · rename_i m hm
    exact ⟨m, hm, h⟩

end JvmLowering
