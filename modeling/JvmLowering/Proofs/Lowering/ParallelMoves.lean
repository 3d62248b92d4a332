import JvmLowering.Proofs.Lowering.MoveRuns

/-!
# Phis are assigned all at once

The moves of an edge are executed one after the other, but since all operands are pushed before any
phi is stored, each phi gets what its operand held before. This holds whatever local variables are
shared, as long as no two phis overlap. Local variables are words here: a wide value takes two of
them, and storing it overwrites both.

* `WordMachine.run`: instructions that move words between the stack and the local variables;
* `PhiMoves.operandWords?`: what an operand holds;
* `PhiMoves.run_moves`: moves deliver what their operands held, and touch nothing but their phis;
* `PhiMoves.insertPhiMoves_parallel`: so do the moves of every edge.
-/

namespace JvmLowering

/-! ### Words -/

/-- The words on the operand stack, from its top down, and in the local variables. -/
structure WordState (W : Type) where
  stack : List W
  locals : Nat → W

namespace WordMachine

variable {W : Type} {locals : Nat → W} {words : Nat → W} {slot n x : Nat}

/-- Puts words into the local variables from an index on. -/
def write (locals : Nat → W) (slot : Nat) (words : List W) (x : Nat) : W :=
  if slot ≤ x then words[x - slot]?.getD (locals x) else locals x

theorem write_add {j : Nat} (hj : j < n) :
    write locals slot ((List.range n).map words) (slot + j) = words j := by
  have hj' : slot + j - slot = j := by omega
  simp [write, hj', hj]

theorem write_of_lt (hx : x < slot) (ws : List W) : write locals slot ws x = locals x := by
  rw [write, if_neg (Nat.not_le.2 hx)]

theorem write_of_le (hx : slot + n ≤ x) :
    write locals slot ((List.range n).map words) x = locals x := by
  have hlength : ((List.range n).map words).length ≤ x - slot := by
    rw [List.length_map, List.length_range]
    omega
  rw [write, if_pos (by omega), List.getElem?_eq_none hlength]
  rfl

/-- Loads and constants push words, and stores pop them into local variables. -/
def step (b : Body) (slot? : ValueId → Option Nat) (word : Constant → Nat → W) (s : WordState W)
    (i : InsnId) : Option (WordState W) :=
  match b.instruction i with
  | ⟨.load, [v], some _, _, _⟩ =>
    (slot? v).map fun n => { s with
      stack := (List.range (width (b.value v).type)).map (fun j => s.locals (n + j)) ++ s.stack }
  | ⟨.constant c, [], some entry, _, _⟩ =>
    some { s with stack := (List.range (width (b.value entry).type)).map (word c) ++ s.stack }
  | ⟨.store, [entry], some v, _, _⟩ =>
    if s.stack.length < width (b.value entry).type then none
    else
      (slot? v).map fun n =>
        ⟨s.stack.drop (width (b.value entry).type),
          write s.locals n (s.stack.take (width (b.value entry).type))⟩
  | _ => none

def run (b : Body) (slot? : ValueId → Option Nat) (word : Constant → Nat → W) (s : WordState W)
    (is : List InsnId) :
    Option (WordState W) :=
  is.foldlM (step b slot? word) s

variable {b : Body} {slot? : ValueId → Option Nat} {word : Constant → Nat → W} {s t u : WordState W}
  {i : InsnId} {is js : List InsnId}

theorem run_singleton (h : step b slot? word s i = some t) : run b slot? word s [i] = some t := by
  unfold run
  rw [List.foldlM_cons, h]
  rfl

theorem run_append (h : run b slot? word s is = some t) (h' : run b slot? word t js = some u) :
    run b slot? word s (is ++ js) = some u := by
  unfold run at h h' ⊢
  rw [List.foldlM_append, h]
  exact h'

end WordMachine

namespace PhiMoves

open Body StackCoding WordMachine

variable {W : Type} {c : StackCoding} {b f : Body} {slot? : ValueId → Option Nat}
  {word : Constant → Nat → W} {locals : Nat → W} {words : Nat → W} {v entry p : ValueId}
  {k : BlockId} {line : Option UInt32} {h n : Nat} {j : InsnId} {ms : List PhiMove}
  {is : List InsnId}

/-- The words of an operand: those of the constant that is pushed in its place, or what is in its
local variable. -/
def operandWords? (c : StackCoding) (b : Body) (slot? : ValueId → Option Nat)
    (word : Constant → Nat → W) (locals : Nat → W) (v : ValueId) : Option (Nat → W) :=
  match c.constant? b v with
  | some constant => some (word constant)
  | none => (slot? v).map fun n j => locals (n + j)

/-- A local variable is one of those that a value takes. -/
def Occupies (b : Body) (slot? : ValueId → Option Nat) (v : ValueId) (x : Nat) : Prop :=
  ∃ n, slot? v = some n ∧ n ≤ x ∧ x < n + width (b.value v).type

/-- Two values have no local variable in common. -/
def Apart (b : Body) (slot? : ValueId → Option Nat) (v w : ValueId) : Prop :=
  ∀ x, Occupies b slot? v x → ¬ Occupies b slot? w x

/-- Values are apart if the ranges of their local variables are. -/
theorem apart_iff {w : ValueId} : Apart b slot? v w ↔
    ∀ n ∈ slot? v, ∀ n' ∈ slot? w,
      Locals.Apart n (width (b.value v).type) n' (width (b.value w).type) := by
  have hv := (width_declared (b.value v).type).1
  have hw := (width_declared (b.value w).type).1
  constructor
  · intro h n hn n' hn'
    by_contra hnot
    -- ranges that overlap have the larger of the two beginnings in common
    rw [Locals.Apart] at hnot
    apply h (max n n')
    · exact ⟨n, hn, by omega, by omega⟩
    · exact ⟨n', hn', by omega, by omega⟩
  · rintro h x ⟨n, hn, hle, hlt⟩ ⟨n', hn', hle', hlt'⟩
    rcases h n hn n' hn' with hapart | hapart
    · omega
    · omega

instance (b : Body) (slot? : ValueId → Option Nat) (v w : ValueId) :
    Decidable (Apart b slot? v w) :=
  decidable_of_iff _ apart_iff.symm

/-! ### Single instructions -/

theorem step_pushed (hp : Pushed c b f k line h v entry j) (hr : b.Retains f) (hv : v ∈ b.values)
    (hwords : operandWords? c b slot? word locals v = some words) (stack : List W) :
    step f slot? word ⟨stack, locals⟩ j =
      some ⟨(List.range (width (b.value v).type)).map words ++ stack, locals⟩ := by
  have hinsn := hp.instruction
  unfold pushing at hinsn
  unfold operandWords? at hwords
  unfold step
  split at hwords
  · rename_i constant hconstant
    rw [hconstant] at hinsn
    obtain rfl := Option.some.inj hwords
    simp only [hinsn, hp.entry.type_eq]
  · rename_i hconstant
    rw [hconstant] at hinsn
    obtain ⟨n, hn, rfl⟩ := Option.map_eq_some_iff.1 hwords
    simp only [hinsn, hn, Option.map_some, hr.type v hv]

theorem step_store (hinsn : f.instruction j = ⟨.store, [entry], some p, k, line⟩) {w : Nat}
    (hwidth : width (f.value entry).type = w) (hslot : slot? p = some n) (word : Constant → Nat → W)
    (words : Nat → W) (stack : List W) (locals : Nat → W) :
    step f slot? word ⟨(List.range w).map words ++ stack, locals⟩ j =
      some ⟨stack, write locals n ((List.range w).map words)⟩ := by
  have hlength : ((List.range w).map words).length = w := by simp
  unfold step
  simp only [hinsn, hwidth, hslot, Option.map_some, List.length_append, hlength]
  rw [if_neg (by omega), List.drop_left' hlength, List.take_left' hlength]

/-! ### Moves -/

/-- A move that can be made: its phi has a local variable as wide as its operand, and what its
operand holds is known. -/
structure Makeable (c : StackCoding) (b : Body) (slot? : ValueId → Option Nat)
    (word : Constant → Nat → W) (locals : Nat → W) (m : PhiMove) : Prop where
  mem : m.operand ∈ b.values
  width_eq : width (b.value m.operand).type = width (b.value m.phi).type
  slot : ∃ n, slot? m.phi = some n
  words : ∃ words, operandWords? c b slot? word locals m.operand = some words

/-- A value holds in the end what another one held in the beginning. -/
def Delivered (c : StackCoding) (b : Body) (slot? : ValueId → Option Nat)
    (word : Constant → Nat → W) (locals locals' : Nat → W) (p v : ValueId) : Prop :=
  ∃ n words, slot? p = some n ∧ operandWords? c b slot? word locals v = some words ∧
    ∀ j < width (b.value p).type, locals' (n + j) = words j

/-- The operands of moves are delivered to phis that do not overlap, and nothing else changes. -/
theorem run_moves (hr : b.Retains f) (hrun : MoveRun c b f k line h ms is)
    (hms : ∀ m ∈ ms, Makeable c b slot? word locals m)
    (hapart : ms.Pairwise fun m m' => Apart b slot? m.phi m'.phi) (stack : List W) :
    ∃ locals', run f slot? word ⟨stack, locals⟩ is = some ⟨stack, locals'⟩ ∧
      (∀ m ∈ ms, Delivered c b slot? word locals locals' m.phi m.operand) ∧
      ∀ x, (∀ m ∈ ms, ¬ Occupies b slot? m.phi x) → locals' x = locals x := by
  induction hrun generalizing stack with
  | nil h => exact ⟨locals, rfl, fun _ hm => absurd hm List.not_mem_nil, fun _ _ => rfl⟩
  | @cons h m ms entry j s is pushed rest new mem stored ih =>
    obtain ⟨⟨hmem, hwidth, ⟨n, hn⟩, words, hwords⟩, hms⟩ := List.forall_mem_cons.1 hms
    obtain ⟨hfirst, hapart⟩ := List.pairwise_cons.1 hapart
    have hpush := step_pushed pushed hr hmem hwords stack
    obtain ⟨locals₁, hrun₁, hdelivered, hothers⟩ :=
      ih hms hapart ((List.range (width (b.value m.operand).type)).map words ++ stack)
    have hstore :=
      step_store stored (congrArg width pushed.entry.type_eq) hn word words stack locals₁
    have hoccupies : ∀ x, ¬ Occupies b slot? m.phi x → x < n ∨
        n + width (b.value m.operand).type ≤ x := by
      intro x hx
      by_contra hnot
      apply hx
      exact ⟨n, hn, by omega, by omega⟩
    refine ⟨write locals₁ n ((List.range (width (b.value m.operand).type)).map words), ?_, ?_, ?_⟩
    · exact run_append (run_append (run_singleton hpush) hrun₁) (run_singleton hstore)
    · refine List.forall_mem_cons.2 ⟨⟨n, words, hn, hwords, fun j hj => ?_⟩, fun m' hm' => ?_⟩
      · rw [← hwidth] at hj
        exact write_add hj
      · -- the phi that is stored last does not overlap this one
        obtain ⟨n', words', hn', hwords', hdelivered'⟩ := hdelivered m' hm'
        refine ⟨n', words', hn', hwords', fun j hj => ?_⟩
        have hx : ¬ Occupies b slot? m.phi (n' + j) :=
          fun hx => hfirst m' hm' _ hx ⟨n', hn', by omega, by omega⟩
        rcases hoccupies _ hx with hlt | hle
        · rw [write_of_lt hlt]
          exact hdelivered' j hj
        · rw [write_of_le hle]
          exact hdelivered' j hj
    · intro x hx
      obtain ⟨hxm, hxms⟩ := List.forall_mem_cons.1 hx
      rcases hoccupies x hxm with hlt | hle
      · rw [write_of_lt hlt]
        exact hothers x hxms
      · rw [write_of_le hle]
        exact hothers x hxms

/-! ### The moves of an edge -/

theorem constant?_eq_none_of_isConstant (hv : b.isConstant v = false) : c.constant? b v = none := by
  unfold StackCoding.constant?
  split
  · rename_i constant inputs output block line hdefinition
    simp [isConstant, hdefinition, Operation.isConstant] at hv
  · rfl

/-- A phi that is not moved is in the local variable of its operand. -/
theorem slot?_of_not_isNeeded {a : Locals} (h : isNeeded b a ⟨p, v⟩ = false) :
    c.constant? b v = none ∧ ∃ n, a.slot? p = some n ∧ a.slot? v = some n := by
  simp only [isNeeded, Bool.or_eq_false_iff, decide_eq_false_iff_not, not_not] at h
  obtain ⟨⟨hconstant, hsome⟩, hslots⟩ := h
  obtain ⟨n, hn⟩ := Option.ne_none_iff_exists'.1 hsome
  exact ⟨constant?_eq_none_of_isConstant hconstant, n, hn, hslots ▸ hn⟩

variable {a : Locals} {l source : BlockId} {position start : Nat} {m : Lowering}
  {moves : BlockId → List PhiMove}

/-- The phis of a block can be assigned over an edge: they have local variables that do not overlap
and are as wide as their operands, and the operands that are moved are constants or have local
variables. -/
structure Assignable (c : StackCoding) (b : Body) (a : Locals) (l : BlockId) (position : Nat) :
    Prop where
  slot : ∀ p ∈ (b.block l).phis, (a.slot? p).isSome
  apart : ∀ p ∈ (b.block l).phis, ∀ q ∈ (b.block l).phis, p ≠ q → Apart b a.slot? p q
  width_eq : ∀ p ∈ (b.block l).phis, ∀ v ∈ (b.operands p)[position]?,
    width (b.value v).type = width (b.value p).type
  operand : ∀ m ∈ onEdge b a (b.block l).phis position, c.constant? b m.operand = none →
    (a.slot? m.operand).isSome

theorem assignable_iff : Assignable c b a l position ↔
    (∀ p ∈ (b.block l).phis, (a.slot? p).isSome) ∧
      (∀ p ∈ (b.block l).phis, ∀ q ∈ (b.block l).phis, p ≠ q → Apart b a.slot? p q) ∧
      (∀ p ∈ (b.block l).phis, ∀ v ∈ (b.operands p)[position]?,
        width (b.value v).type = width (b.value p).type) ∧
      ∀ m ∈ onEdge b a (b.block l).phis position, c.constant? b m.operand = none →
        (a.slot? m.operand).isSome :=
  ⟨fun h => ⟨h.slot, h.apart, h.width_eq, h.operand⟩, fun h => ⟨h.1, h.2.1, h.2.2.1, h.2.2.2⟩⟩

instance : Decidable (Assignable c b a l position) := decidable_of_iff _ assignable_iff.symm

theorem Assignable.makeable (hb : Resolvable b) (h : Assignable c b a l position)
    (word : Constant → Nat → W) (locals : Nat → W) {n : PhiMove}
    (hn : n ∈ onEdge b a (b.block l).phis position) : Makeable c b a.slot? word locals n := by
  obtain ⟨⟨hp, hv⟩, -⟩ := mem_onEdge.1 hn
  refine ⟨(hb.operands l n.phi hp n.operand (List.mem_of_getElem? hv)).1,
    h.width_eq n.phi hp n.operand hv, Option.isSome_iff_exists.1 (h.slot n.phi hp), ?_⟩
  cases hconstant : c.constant? b n.operand with
  | some constant => exact ⟨word constant, by simp only [operandWords?, hconstant]⟩
  | none =>
    obtain ⟨x, hx⟩ := Option.isSome_iff_exists.1 (h.operand n hn hconstant)
    exact ⟨fun j => locals (x + j), by simp only [operandWords?, hconstant, hx, Option.map_some]⟩

/-- Every phi gets its operand, whether it is moved or not. -/
theorem run_edge (hb : Resolvable b) (hnodup : (b.block l).phis.Nodup)
    (h : Resolved c b a (fun _ _ => True) moves start m)
    (he : (b.block l).predecessors[position]? = some source) (ha : Assignable c b a l position)
    (hrun : MoveRun c b m.body source line 0 (moves source) is) (word : Constant → Nat → W)
    (locals : Nat → W) :
    ∃ locals', run m.body a.slot? word ⟨[], locals⟩ is = some ⟨[], locals'⟩ ∧
      (∀ p ∈ (b.block l).phis, ∀ v ∈ (b.operands p)[position]?,
        Delivered c b a.slot? word locals locals' p v) ∧
      ∀ x, (∀ p ∈ (b.block l).phis, ¬ Occupies b a.slot? p x) → locals' x = locals x := by
  rw [h.edge l position source trivial he] at hrun
  have hphi : ∀ n ∈ onEdge b a (b.block l).phis position, n.phi ∈ (b.block l).phis :=
    fun n hn => (mem_onEdge.1 hn).1.1
  have hpairwise : (onEdge b a (b.block l).phis position).Pairwise fun n n' => n.phi ≠ n'.phi :=
    List.pairwise_map.1 ((onEdge_sublist b a (b.block l).phis position).nodup hnodup)
  have hapart := hpairwise.imp_of_mem fun hn hn' hne => ha.apart _ (hphi _ hn) _ (hphi _ hn') hne
  obtain ⟨locals', hrun', hdelivered, hothers⟩ :=
    run_moves h.grows.toRetains hrun (fun n hn => ha.makeable hb word locals hn) hapart []
  refine ⟨locals', hrun', fun p hp v hv => ?_, fun x hx => hothers x fun n hn =>
    hx n.phi (hphi n hn)⟩
  cases hneeded : isNeeded b a ⟨p, v⟩ with
  | true => exact hdelivered ⟨p, v⟩ (mem_onEdge.2 ⟨⟨hp, hv⟩, hneeded⟩)
  | false =>
    -- a phi that is not moved shares the local variable of its operand, and no other phi is there
    obtain ⟨hconstant, n, hn, hn'⟩ := slot?_of_not_isNeeded (c := c) hneeded
    refine ⟨n, fun j => locals (n + j),
      hn, by simp only [operandWords?, hconstant, hn', Option.map_some], fun j hj => ?_⟩
    refine hothers _ fun m hm hoccupies => ?_
    obtain ⟨⟨-, hoperand⟩, hmoved⟩ := mem_onEdge.1 hm
    by_cases hmp : m.phi = p
    · obtain ⟨q, w⟩ := m
      obtain rfl : q = p := hmp
      obtain rfl : w = v := Option.some.inj (hoperand.symm.trans hv)
      rw [hneeded] at hmoved
      exact Bool.noConfusion hmoved
    · exact ha.apart _ (hphi m hm) p hp hmp _ hoccupies ⟨n, hn, by omega, by omega⟩

/-! ### All edges -/

/-- Without its moves a block is as it was. -/
theorem HasMoves.filter (hb : b.Closed) (h : HasMoves c b f k ms) :
    (f.block k).instructions.filter (· ∈ b.instructions) = (b.block k).instructions := by
  obtain ⟨added, hlist, hrun⟩ := h
  have hparts := splitJump_append b (b.block k).instructions
  have hold : ∀ i ∈ (splitJump b (b.block k).instructions).1 ++
      (splitJump b (b.block k).instructions).2.toList,
      decide (i ∈ b.instructions) = true := by
    intro i hi
    rw [hparts] at hi
    exact decide_eq_true (hb.instructions k i hi)
  have hnew : added.filter (· ∈ b.instructions) = [] := by
    rw [List.filter_eq_nil_iff]
    intro i hi
    simpa using (hrun.mem i hi).2
  rw [hlist, List.filter_append, List.filter_append, hnew, List.append_nil, ← List.filter_append,
    List.filter_eq_self.2 hold, hparts]

/-- **Moves are parallel assignments.** Where the phis of a block do not overlap, the instructions
that are added for an edge leave in each of them what its operand on the edge held before, and
change nothing else. They stand together before the jump that ends the predecessor. -/
theorem insertPhiMoves_parallel {b : Body} (hb : b.Built) {c c' : StackCoding}
    {coded m m' : Lowering} {a a' : Locals}
    (hcoded : c.insertLoadsAndStores { body := b } = (coded, none)) (hm : m.body = coded.body)
    (h : c'.insertPhiMoves m a = ((m', a'), none)) {l source : BlockId} {position : Nat}
    (he : (m.body.block l).predecessors[position]? = some source)
    (ha : Assignable c' m.body a l position) :
    a'.slot? = a.slot? ∧ ∃ front added,
      (m.body.block source).instructions = front ++ (m.body.jump? source).toList ∧
      (m'.body.block source).instructions = front ++ added ++ (m.body.jump? source).toList ∧
      (∀ i ∈ added, i ∉ m.body.instructions) ∧
      (∀ i ∈ m.body.instructions, m'.body.instruction i = m.body.instruction i) ∧
      (∀ k, (m'.body.block k).instructions.filter (· ∈ m.body.instructions) =
        (m.body.block k).instructions) ∧
      ∀ {W : Type} (word : Constant → Nat → W) (locals : Nat → W), ∃ locals',
        run m'.body a.slot? word ⟨[], locals⟩ added = some ⟨[], locals'⟩ ∧
        (∀ p ∈ (m.body.block l).phis, ∀ v ∈ (m.body.operands p)[position]?,
          Delivered c' m.body a.slot? word locals locals' p v) ∧
        ∀ x, (∀ p ∈ (m.body.block l).phis, ¬ Occupies m.body a.slot? p x) →
            locals' x = locals x := by
  have hw := hb.wellFormed
  obtain ⟨coded', hcoded', hhalfway⟩ := insertLoadsAndStores_total hw c
  obtain rfl : coded = coded' := congrArg Prod.fst (hcoded.symm.trans hcoded')
  rw [← hm] at hhalfway
  have hresolvable := resolvable_of_halfway hw hhalfway
  -- every edge has its moves, and one that goes into the block has those of its phis
  obtain ⟨hslots, moves, hresolved⟩ := insertPhiMoves_resolved hresolvable h
  have hnodup : (m.body.block l).phis.Nodup := by
    rw [hhalfway.retains.phis]
    exact hw.phis_nodup l
  obtain ⟨added, hlist, hrun⟩ := hresolved.blocks source
  rw [snd_splitJump] at hlist
  refine ⟨hslots, _, added, ?_, hlist, fun i hi => (hrun.mem i hi).2, hresolved.grows.instruction,
    fun k => (hresolved.blocks k).filter hresolvable.closed,
    fun word locals => run_edge hresolvable hnodup hresolved he ha hrun word locals⟩
  rw [← snd_splitJump, splitJump_append]

/-- The two phis of the loop change places over its back edge. -/
theorem insertPhiMoves_parallel_swapLoop : ∃ a coded m a' added,
    Locals.naive {} swapLoop = .ok a ∧
      (⟨{}, none⟩ : StackCoding).insertLoadsAndStores { body := swapLoop } = (coded, none) ∧
    (⟨{}, none⟩ : StackCoding).insertPhiMoves coded a = ((m, a'), none) ∧
      Assignable ⟨{}, none⟩ coded.body a ⟨1⟩ 1 ∧
    ∀ locals : Nat → Nat, ∃ locals', run m.body a.slot? (fun _ _ => 0) ⟨[], locals⟩ added =
      some ⟨[], locals'⟩ ∧
      locals' 2 = locals 3 ∧ locals' 3 = locals 2 := by
  have hcheck : (match Locals.naive {} swapLoop,
      (⟨{}, none⟩ : StackCoding).insertLoadsAndStores { body := swapLoop } with
      | .ok a, (coded, none) =>
        match (⟨{}, none⟩ : StackCoding).insertPhiMoves coded a with
        | (_, none) =>
          decide ((coded.body.block ⟨1⟩).predecessors[1]? = some ⟨2⟩ ∧
            Assignable ⟨{}, none⟩ coded.body a ⟨1⟩ 1 ∧
            (coded.body.block ⟨1⟩).phis = [⟨2⟩, ⟨3⟩] ∧ (coded.body.operands ⟨2⟩)[1]? = some ⟨3⟩ ∧
            a.slot? ⟨2⟩ = some 2 ∧
            (coded.body.operands ⟨3⟩)[1]? = some ⟨2⟩ ∧ a.slot? ⟨3⟩ = some 3 ∧
            ∀ v ∈ [⟨2⟩, ⟨3⟩], (⟨{}, none⟩ : StackCoding).constant? coded.body v = none)
        | _ => false
      | _, _ => false) = true := by
    cbv
  split at hcheck
  · rename_i a coded ha hcoded
    split at hcheck
    · rename_i s hs
      obtain ⟨m, a'⟩ := s
      obtain ⟨he, hassignable, hphis, hop₂, hslot₂, hop₃, hslot₃, hloaded⟩ :=
        of_decide_eq_true hcheck
      obtain ⟨-, -, added, -, -, -, -, -, hparallel⟩ :=
        insertPhiMoves_parallel (built_ofSteps _ _) hcoded rfl hs he hassignable
      refine ⟨a, coded, m, a', added, ha, hcoded, hs, hassignable, fun locals => ?_⟩
      obtain ⟨locals', hrun, hdelivered, -⟩ := hparallel (fun _ _ => 0) locals
      -- a phi takes the first word of the other one
      have htaken : ∀ p v n n', p ∈ (coded.body.block ⟨1⟩).phis →
          (coded.body.operands p)[1]? = some v → a.slot? p = some n → a.slot? v = some n' →
          v ∈ [⟨2⟩, ⟨3⟩] → locals' n = locals n' := by
        intro p v n n' hp hv hn hn' hmem
        obtain ⟨x, words, hx, hwords, hlocals⟩ := hdelivered p hp v hv
        obtain rfl : n = x := Option.some.inj (hn.symm.trans hx)
        simp only [operandWords?, hloaded v hmem, hn', Option.map_some, Option.some.injEq] at hwords
        have hfirst := hlocals 0 (width_declared _).1
        rwa [← hwords] at hfirst
      exact ⟨locals', hrun, htaken _ _ _ _ (by simp [hphis]) hop₂ hslot₂ hslot₃ (by simp),
        htaken _ _ _ _ (by simp [hphis]) hop₃ hslot₃ hslot₂ (by simp)⟩
    · simp at hcheck
  · simp at hcheck

end PhiMoves

end JvmLowering
