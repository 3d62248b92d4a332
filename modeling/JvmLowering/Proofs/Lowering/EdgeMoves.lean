import JvmLowering.Lowering.Method
import JvmLowering.Proofs.Lowering.NaiveLocals
import JvmLowering.Proofs.Lowering.Translation
import Mathlib.Data.List.Nodup

/-!
# Moves on edges

The phis of a block become moves at the ends of its predecessors. All operands of an edge are pushed
before any phi is stored, so that the moves act as one. A predecessor that leads elsewhere too has
none.

* `PhiMoves.Serves`: what moves have to do for an edge;
* `PhiMoves.Resolving`, `PhiMoves.resolveBlock_ok`: the edges that have been served, block by block;
* `Body.toStackCode_ok`: the commands of every block in the end.
-/

namespace JvmLowering

namespace PhiMoves

open Body Emitter StackCoding

variable {c : StackCoding} {b b' : Body} {e : Emitter} {m m' : Lowering} {k l : BlockId}
  {p v : ValueId} {ms : List PhiMove}

/-! ### Moves at the end of a block -/

/-- The commands of some moves: the operands are pushed in order, and the phis are stored in
reverse. -/
def commands (c : StackCoding) (b : Body) (ms : List PhiMove) : List Command :=
  ms.map (fun m => c.pushCommand b m.operand) ++ ms.reverse.map fun m => .store m.phi

theorem pushAll_ok (k : BlockId) (line : Option UInt32) (hb : b.WellFormed) (hk : Kept c b e.body)
    (hms : ∀ m ∈ ms, m.operand ∈ b.values) :
    (pushAll c k line e ms).1.map Prod.fst = ms ∧ Kept c b (pushAll c k line e ms).2.body ∧
      Emits e (pushAll c k line e ms).2 (ms.map fun m => c.pushCommand b m.operand) := by
  induction ms generalizing e with
  | nil => exact ⟨rfl, hk, Emits.refl e⟩
  | cons m ms ih =>
    have hm := hms m List.mem_cons_self
    have hp := pushOperand_ok c k line (hk.mem_values _ hm)
    obtain ⟨hmap, hk', hemits⟩ := ih (hp.kept hk) fun n hn => hms n (List.mem_cons_of_mem m hn)
    have hfirst := hp.emits
    rw [pushCommand, hk.constant? hb hm] at hfirst
    exact ⟨congrArg (m :: ·) hmap, hk', hfirst.trans hemits⟩

theorem storeAll_ok (k : BlockId) (line : Option UInt32) (hk : Kept c b e.body)
    {pushed : List (PhiMove × ValueId)}
    (hphis : ∀ x ∈ pushed, ∃ l operands, (b.value x.1.phi).origin = .phi l operands) :
    Kept c b (pushed.foldl (store k line) e).body ∧
      Emits e (pushed.foldl (store k line) e) (pushed.map fun x => .store x.1.phi) := by
  induction pushed generalizing e with
  | nil => exact ⟨hk, Emits.refl e⟩
  | cons x pushed ih =>
    have hk' : Kept c b (store k line e x).body := by
      refine Kept.emit (e := e.popEntry) hk _ fun w _ hw => Or.inl ?_
      obtain rfl := Option.some.inj hw
      exact hphis x List.mem_cons_self
    have hemits := emits_emit e.popEntry ⟨.store, [x.2], some x.1.phi, k, line⟩
    obtain ⟨hk'', hemits'⟩ := ih hk' fun y hy => hphis y (List.mem_cons_of_mem x hy)
    have hfirst : Emits e (store k line e x) [.store x.1.phi] :=
      ⟨hemits.keeps, hemits.instructions, hemits.emitted⟩
    exact ⟨hk'', hfirst.trans hemits'⟩

/-- A block that ends in a jump gets moves right before it, and the other blocks stay as they
are. -/
theorem insert_ok (hb : b.WellFormed) (hk : Kept c b m.body) (hl : l ∈ b.blocks)
    (hms : ∀ m ∈ ms, m.operand ∈ b.values ∧ ∃ l operands, (b.value m.phi).origin = .phi l operands)
    {front : List Command} {arity : Nat} {pushes : Bool}
    (hcode : HasCode m.body l (front ++ [.act .goto arity pushes])) :
    Kept c b (insert c m l ms).body ∧
      HasCode (insert c m l ms).body l (front ++ commands c b ms ++ [.act .goto arity pushes]) ∧
      ∀ l' xs, l' ≠ l → HasCode m.body l' xs → HasCode (insert c m l ms).body l' xs := by
  -- the block is some instructions `is` and then the jump `i`
  obtain ⟨hmem, hcommands⟩ := hcode
  obtain ⟨is, js, hinstructions, his, hjs⟩ := List.map_eq_append_iff.1 hcommands
  obtain ⟨i, js', rfl, hi, hjs'⟩ := List.map_eq_cons_iff.1 hjs
  obtain rfl := List.map_eq_nil_iff.1 hjs'
  have hgoto : (m.body.instruction i).operation.isGoto = true := by
    rw [Instruction.operation_of_command hi]
    rfl
  have hsplit : splitJump m.body (m.body.block l).instructions = (is, some i) := by
    simp [splitJump, hinstructions, hgoto]
  have hil : i ∈ m.body.instructions := hmem i (by simp [hinstructions])
  have his' : ∀ j ∈ is, j ∈ m.body.instructions := fun j hj => hmem j (by simp [hinstructions, hj])
  -- all operands are pushed, and then stored in the opposite order
  unfold insert
  simp only [hsplit]
  generalize ((some i).bind fun i => (m.body.instruction i).line) = line
  obtain ⟨hmap, hk₁, hemits₁⟩ :=
    pushAll_ok (e := { m with emitted := is }) l line hb hk fun m hm => (hms m hm).1
  generalize pushAll c l line { m with emitted := is } ms = r at hmap hk₁ hemits₁ ⊢
  obtain ⟨pushed, e₁⟩ := r
  have hphis : ∀ x ∈ pushed.reverse, ∃ l operands, (b.value x.1.phi).origin = .phi l operands := by
    intro x hx
    exact (hms x.1 (hmap ▸ List.mem_map_of_mem (List.mem_reverse.1 hx))).2
  obtain ⟨hk₂, hemits₂⟩ := storeAll_ok l line hk₁ hphis
  have hstores : pushed.reverse.map (fun x => Command.store x.1.phi) = ms.reverse.map fun m =>
      .store m.phi := by
    rw [← hmap, ← List.map_reverse, List.map_map]
    rfl
  rw [hstores] at hemits₂
  have hemits := hemits₁.trans hemits₂
  simp only [Option.toList_some] at hk₂ hemits ⊢
  generalize pushed.reverse.foldl (store l line) e₁ = e₂ at hk₂ hemits
  have hl₂ : l ∈ e₂.body.blocks := (hk₂.mem_blocks l).2 hl
  obtain ⟨js, hemitted, hjs, hcommands'⟩ := hemits.emitted
  have hkeeps : Keeps m.body (e₂.body.setInstructions l (e₂.emitted ++ [i])) :=
    hemits.keeps.trans (keeps_setInstructions _)
  -- the jump comes last again
  have hcode : ((e₂.body.setInstructions l (e₂.emitted ++ [i])).block l).instructions =
      is ++ js ++ [i] := by
    rw [block_setInstructions _ hl₂, if_pos rfl, hemitted]
  refine ⟨hk₂.setInstructions hl₂ _, ⟨?_, ?_⟩, fun l' xs hl' h => h.of_keeps hkeeps ?_⟩
  · intro j hj
    rw [hcode] at hj
    rcases List.mem_append.1 hj with hj | hj
    · rcases List.mem_append.1 hj with hj | hj
      · exact hkeeps.mem j (his' j hj)
      · exact hjs j hj
    · rw [List.mem_singleton.1 hj]
      exact hkeeps.mem i hil
  · rw [hcode, commands_append, commands_append, hkeeps.commands his', Body.commands, his]
    refine congrArg₂ (· ++ ·) (congrArg (front ++ ·) hcommands') ?_
    rw [Body.commands, List.map_singleton, hkeeps.command i hil, hi]
  · rw [block_setInstructions _ hl₂]
    simp only [if_neg hl', hemits.instructions l']

/-! ### Moves for an edge -/

/-- Moves that serve the edge from the predecessor at a position: each phi that they move gets its
operand, and each other one is in the local variable of its operand already. -/
structure Serves (b : Body) (slot? : ValueId → Option Nat) (l : BlockId) (position : Nat)
    (ms : List PhiMove) : Prop where
  sound : ∀ m ∈ ms, m.phi ∈ (b.block l).phis ∧ (b.operands m.phi)[position]? = some m.operand
  nodup : (ms.map PhiMove.phi).Nodup
  complete : ∀ p ∈ (b.block l).phis, ∀ v, (b.operands p)[position]? = some v →
    ⟨p, v⟩ ∈ ms ∨ ∃ n, slot? p = some n ∧ slot? v = some n

/-- Each phi is moved at most once. -/
theorem onEdge_sublist (b : Body) (a : Locals) (phis : List ValueId) (position : Nat) :
    ((onEdge b a phis position).map PhiMove.phi).Sublist phis := by
  refine (List.Sublist.map _ List.filter_sublist).trans ?_
  induction phis with
  | nil => exact List.Sublist.refl []
  | cons p phis ih =>
    cases hv : (b.operands p)[position]? with
    | none =>
      simp only [List.filterMap_cons, hv, Option.map_none]
      exact ih.cons p
    | some v =>
      simp only [List.filterMap_cons, hv, Option.map_some, List.map_cons]
      exact ih.cons_cons p

theorem mem_onEdge {a : Locals} {phis : List ValueId} {position : Nat} {m : PhiMove} :
    m ∈ onEdge b a phis position ↔ (m.phi ∈ phis ∧ (b.operands m.phi)[position]? = some m.operand) ∧
    isNeeded b a m = true := by
  unfold onEdge
  rw [List.mem_filter, List.mem_filterMap]
  refine and_congr_left fun _ => ⟨?_, ?_⟩
  · rintro ⟨p, hp, hm⟩
    obtain ⟨v, hv, rfl⟩ := Option.map_eq_some_iff.1 hm
    exact ⟨hp, hv⟩
  · rintro ⟨hp, hv⟩
    exact ⟨m.phi, hp, by rw [hv]; rfl⟩

theorem onEdge_serves (hb : b.WellFormed) (hk : Kept c b b') (a : Locals) (l : BlockId)
    (position : Nat) :
    Serves b a.slot? l position (onEdge b' a (b.block l).phis position) := by
  have hoperands : ∀ p ∈ (b.block l).phis, b'.operands p = b.operands p := by
    intro p hp
    exact hk.operands (hb.mem_values_of_phi hp)
  refine ⟨fun m hm => ?_, ?_, fun p hp v hv => ?_⟩
  · obtain ⟨⟨hp, hv⟩, -⟩ := mem_onEdge.1 hm
    exact ⟨hp, hoperands m.phi hp ▸ hv⟩
  · exact (onEdge_sublist ..).nodup (hb.phis_nodup l)
  · cases hneeded : isNeeded b' a ⟨p, v⟩ with
    | true => exact Or.inl (mem_onEdge.2 ⟨⟨hp, by rwa [hoperands p hp]⟩, hneeded⟩)
    | false =>
      simp only [isNeeded, Bool.or_eq_false_iff, decide_eq_false_iff_not, not_not] at hneeded
      obtain ⟨n, hn⟩ := Option.ne_none_iff_exists'.1 hneeded.1.2
      exact Or.inr ⟨n, hn, hneeded.2 ▸ hn⟩

/-! ### Serving the edges one by one -/

/-- Commands with moves before the last one. -/
def withMoves (c : StackCoding) (b : Body) (xs : List Command) (ms : List PhiMove) : List Command :=
  xs.dropLast ++ commands c b ms ++ xs.getLast?.toList

theorem withMoves_append (front : List Command) (exit : Command) :
    withMoves c b (front ++ [exit]) ms = front ++ commands c b ms ++ [exit] := by
  simp [withMoves]

theorem withMoves_nil (xs : List Command) : withMoves c b xs [] = xs := by
  rcases List.eq_nil_or_concat xs with rfl | ⟨front, exit, rfl⟩
  · rfl
  · simp [withMoves_append, commands]

/-- The edges that have been served. A block that leads to one other block has the moves for it,
once they have been written. -/
structure Resolving (c : StackCoding) (b : Body) (slot? : ValueId → Option Nat)
    (served : BlockId → BlockId → Prop) (b' : Body) : Prop where
  kept : Kept c b b'
  code : ∀ k ∈ b.blocks, ∃ ms, HasCode b' k (withMoves c b (c.translateBlock b k) ms) ∧
    (ms ≠ [] → ∃ l, (b.block k).successors = [l] ∧ served k l) ∧
    ∀ l ∈ (b.block k).successors, served k l →
      Serves b slot? l ((b.block l).predecessors.idxOf k) ms

variable {slot? : ValueId → Option Nat} {served served' : BlockId → BlockId → Prop}

theorem Resolving.congr (h : Resolving c b slot? served b')
    (hserved : ∀ k l, l ∈ (b.block k).successors → (served k l ↔ served' k l)) :
    Resolving c b slot? served' b' := by
  refine ⟨h.kept, fun k hk => ?_⟩
  obtain ⟨ms, hcode, hms, hserves⟩ := h.code k hk
  refine ⟨ms, hcode, fun hne => ?_, fun l hl hs => hserves l hl ((hserved k l hl).2 hs)⟩
  obtain ⟨l, hsuccessors, hs⟩ := hms hne
  exact ⟨l, hsuccessors, (hserved k l (by simp [hsuccessors])).1 hs⟩

/-- Edges that need no moves count as served. -/
theorem Resolving.unmoved (h : Resolving c b slot? served b') {new : BlockId → BlockId → Prop}
    (hnew : ∀ k l, new k l → ¬ served k l ∧
      Serves b slot? l ((b.block l).predecessors.idxOf k) []) :
    Resolving c b slot? (fun k l => served k l ∨ new k l) b' := by
  refine ⟨h.kept, fun k hk => ?_⟩
  obtain ⟨ms, hcode, hms, hserves⟩ := h.code k hk
  refine ⟨ms, hcode, fun hne => ?_, fun l hl hs => ?_⟩
  · obtain ⟨l, hsuccessors, hs⟩ := hms hne
    exact ⟨l, hsuccessors, Or.inl hs⟩
  · rcases hs with hs | hs
    · exact hserves l hl hs
    · obtain ⟨hnot, hnil⟩ := hnew k l hs
      by_cases hne : ms = []
      · rwa [hne]
      · obtain ⟨l', hsuccessors, hs'⟩ := hms hne
        rw [hsuccessors, List.mem_singleton] at hl
        exact absurd (hl ▸ hs') hnot

/-- A block with one successor ends in a jump. -/
def EndsInJumps (c : StackCoding) (b : Body) : Prop :=
  ∀ k l, (b.block k).successors = [l] → ∃ front arity pushes,
    c.translateBlock b k = front ++ [.act .goto arity pushes]

theorem insertOnEdge_ok (hb : b.WellFormed) (hjumps : EndsInJumps c b) {a : Locals}
    (hslots : ∀ v, a.slot? v = slot? v) (h : Resolving c b slot? served m.body)
    (hl : l ∈ (b.block k).successors) (hnot : ¬ served k l)
    (hstep : insertOnEdge c a l (b.block l).phis m (k, (b.block l).predecessors.idxOf k) =
      (m', none)) :
    Resolving c b slot? (fun k' l' => served k' l' ∨ (k' = k ∧ l' = l)) m'.body := by
  obtain rfl : a.slot? = slot? := funext hslots
  have hkb := mem_blocks_of_successor hl
  have hserves := onEdge_serves hb h.kept a l ((b.block l).predecessors.idxOf k)
  have hmoving := moves c a l (b.block l).phis m k ((b.block l).predecessors.idxOf k)
  rw [hstep] at hmoving
  cases hmoving with
  | unmoved hnil =>
    rw [hnil] at hserves
    refine h.unmoved fun k' l' hnew => ?_
    obtain ⟨rfl, rfl⟩ := hnew
    exact ⟨hnot, hserves⟩
  | moved hsome hone =>
    rw [h.kept.successors] at hone
    have hsuccessors : (b.block k).successors = [l] := by
      match hs : (b.block k).successors, hl, hone with
      | [l'], hl, _ => rw [List.mem_singleton.1 hl]
      | _ :: _ :: _, _, hone => simp at hone
    generalize onEdge m.body a (b.block l).phis _ = ms at hserves
    -- no other edge leaves the block, so it has no moves yet
    obtain ⟨ms', hcode, hms, -⟩ := h.code k hkb
    have hnil : ms' = [] := by
      refine Classical.byContradiction fun hne => ?_
      obtain ⟨l', hl', hs⟩ := hms hne
      obtain rfl : l = l' := List.singleton_inj.1 (hsuccessors.symm.trans hl')
      exact hnot hs
    obtain ⟨front, arity, pushes, hfront⟩ := hjumps k l hsuccessors
    rw [hnil, withMoves_nil, hfront] at hcode
    have hvalues : ∀ m ∈ ms, m.operand ∈ b.values ∧ ∃ l operands,
        (b.value m.phi).origin = .phi l operands := by
      intro m hm
      obtain ⟨hphi, hoperand⟩ := hserves.sound m hm
      exact ⟨hb.operands_mem m.phi m.operand (List.mem_of_getElem? hoperand), l,
        (hb.mem_phis l m.phi).1 hphi⟩
    obtain ⟨hkept, hinserted, hothers⟩ := insert_ok hb h.kept hkb hvalues hcode
    refine ⟨hkept, fun k' hk' => ?_⟩
    by_cases hkk : k' = k
    · subst hkk
      refine ⟨ms, ?_, fun _ => ⟨l, hsuccessors, Or.inr ⟨rfl, rfl⟩⟩, fun l' hl' _ => ?_⟩
      · rw [hfront, withMoves_append]
        exact hinserted
      · rw [hsuccessors, List.mem_singleton] at hl'
        rwa [hl']
    · obtain ⟨ms', hcode', hms', hserves'⟩ := h.code k' hk'
      refine ⟨ms', hothers k' _ hkk hcode', fun hne => ?_,
        fun l' hl' hs => hserves' l' hl' (hs.resolve_right fun h => hkk h.1)⟩
      obtain ⟨l', hl', hs⟩ := hms' hne
      exact ⟨l', hl', Or.inl hs⟩

theorem insertOnEdges_ok (hb : b.WellFormed) (hjumps : EndsInJumps c b) {a : Locals}
    (hslots : ∀ v, a.slot? v = slot? v) {edges : List (BlockId × Nat)}
    (hnodup : (edges.map Prod.fst).Nodup)
    (hedges : ∀ x ∈ edges, l ∈ (b.block x.1).successors ∧ x.2 = (b.block l).predecessors.idxOf x.1)
    (h : Resolving c b slot? served m.body) (hnot : ∀ x ∈ edges, ¬ served x.1 l)
    (hrun : attemptAll (insertOnEdge c a l (b.block l).phis) m edges = (m', none)) :
    Resolving c b slot? (fun k' l' => served k' l' ∨ (k' ∈ edges.map Prod.fst ∧ l' = l))
      m'.body := by
  induction edges generalizing served m with
  | nil =>
    obtain rfl : m = m' := congrArg Prod.fst hrun
    exact h.congr fun k' l' _ => by simp
  | cons edge edges ih =>
    obtain ⟨k, position⟩ := edge
    obtain ⟨hfirst, hrest⟩ := attemptAll_cons hrun
    obtain ⟨hl, hposition⟩ : l ∈ (b.block k).successors ∧
        position = (b.block l).predecessors.idxOf k :=
      hedges _ List.mem_cons_self
    subst hposition
    obtain ⟨hk, hnodup'⟩ := List.nodup_cons.1 hnodup
    have h' := insertOnEdge_ok hb hjumps hslots h hl (hnot _ List.mem_cons_self) hfirst
    -- the edges are different, so those to come are not served yet
    have hnot' : ∀ x ∈ edges, ¬ (served x.1 l ∨ (x.1 = k ∧ l = l)) := by
      rintro x hx (hs | ⟨rfl, -⟩)
      · exact hnot x (List.mem_cons_of_mem _ hx) hs
      · exact hk (List.mem_map.2 ⟨x, hx, rfl⟩)
    refine (ih hnodup' (fun x hx => hedges x (List.mem_cons_of_mem _ hx)) h' hnot' hrest).congr
      fun k' l' _ => ?_
    rw [List.map_cons, List.mem_cons, or_and_right, or_assoc]

/-- A block is entered over each edge at the position of the predecessor. -/
theorem mem_predecessors_zipIdx (hb : b.WellFormed) (hnodup : (b.block l).predecessors.Nodup)
    {x : BlockId × Nat} (hx : x ∈ (b.block l).predecessors.zipIdx) :
    l ∈ (b.block x.1).successors ∧ x.2 = (b.block l).predecessors.idxOf x.1 := by
  obtain ⟨k, n⟩ := x
  obtain ⟨hn, rfl⟩ : ∃ hn : n < (b.block l).predecessors.length, (b.block l).predecessors[n] = k :=
    List.getElem?_eq_some_iff.1 (List.mem_zipIdx_iff_getElem?.1 hx)
  refine ⟨?_, (hnodup.idxOf_getElem n hn).symm⟩
  rw [← List.count_pos_iff, hb.edges, List.count_pos_iff]
  exact List.getElem_mem hn

/-! ### Letting go of the operands -/

/-- Nothing but the readers of values has changed. -/
structure Reread (b b' : Body) : Prop where
  instructions : b'.instructions = b.instructions
  blocks : b'.blocks = b.blocks
  mem_values : ∀ v, v ∈ b'.values ↔ v ∈ b.values
  origin : ∀ v, (b'.value v).origin = (b.value v).origin

theorem Reread.refl (b : Body) : Reread b b := ⟨rfl, rfl, fun _ => Iff.rfl, fun _ => rfl⟩

theorem Reread.detach (h : Reread b b') (p : ValueId) : Reread b (detach b' p) := by
  refine List.foldlRecOn (b'.operands p) _ h fun b'' h v _ =>
    ⟨h.instructions, h.blocks, fun w => ?_, fun w => ?_⟩
  · exact Table.mem_modify.trans (h.mem_values w)
  · have hsame : ((b''.modifyValue v (·.removePhiReader p)).value w).origin =
        (b''.value w).origin :=
      value_modifyValue_congr _ _ _ Value.origin fun _ => rfl
    exact hsame.trans (h.origin w)

theorem Reread.resolving (hr : Reread b' m.body) (h : Resolving c b slot? served b') :
    Resolving c b slot? served m.body := by
  have hinstruction : ∀ i, m.body.instruction i = b'.instruction i :=
    fun i => by rw [instruction, instruction, hr.instructions]
  have hblock : ∀ k, m.body.block k = b'.block k := fun k => by rw [block, block, hr.blocks]
  have hkeeps : Keeps b' m.body :=
    keeps_of_instruction (fun i hi => hr.instructions ▸ hi) fun i _ => hinstruction i
  refine ⟨h.kept.change hkeeps (fun v hv => (hr.mem_values v).2 hv) (fun k => by rw [hr.blocks])
    (fun v _ => Or.inl (hr.origin v)) fun k => ⟨_, (b'.block k).throwing, hblock k⟩, fun k hk => ?_⟩
  obtain ⟨ms, hcode, hms, hserves⟩ := h.code k hk
  exact ⟨ms, hcode.of_keeps hkeeps (congrArg Block.instructions (hblock k)), hms, hserves⟩

/-! ### All blocks -/

theorem slot?_foldl_addLive (a : Locals) (k : BlockId) (vs : List ValueId) (v : ValueId) :
    (vs.foldl (·.addLive k) a).slot? v = a.slot? v := by
  induction vs generalizing a with
  | nil => rfl
  | cons w vs ih => exact ih (a.addLive k w)

theorem resolveBlock_ok (hb : b.WellFormed) (hsuccessors : ∀ k, (b.block k).successors.Nodup)
    (hjumps : EndsInJumps c b) {a a' : Locals} (hslots : ∀ v, a.slot? v = slot? v)
    (h : Resolving c b slot? served m.body) (hnot : ∀ k, ¬ served k l)
    (hstep : resolveBlock c (m, a) l = ((m', a'), none)) :
    (∀ v, a'.slot? v = slot? v) ∧
      Resolving c b slot? (fun k' l' => served k' l' ∨ l' = l) m'.body := by
  -- an edge that is there once is listed once at its target
  have hpredecessors : (b.block l).predecessors.Nodup := by
    rw [List.nodup_iff_count_le_one]
    intro k
    rw [← hb.edges]
    exact List.nodup_iff_count_le_one.1 (hsuccessors k) l
  have hresolves := resolves c m a l
  rw [hstep] at hresolves
  cases hresolves with
  | unphied hempty =>
    rw [h.kept.phis] at hempty
    refine ⟨hslots, h.unmoved fun k' l' hl' =>
      ⟨hl' ▸ hnot k', fun _ hm => absurd hm List.not_mem_nil, List.nodup_nil, ?_⟩⟩
    intro p hp
    rw [hl', hempty] at hp
    exact absurd hp List.not_mem_nil
  | @resolved m₁ _ _ hrun =>
    rw [h.kept.phis, h.kept.predecessors] at hrun
    rw [h.kept.phis]
    refine ⟨fun v => (slot?_foldl_addLive ..).trans (hslots v), ?_⟩
    -- all edges into the block are served, and phis that are detached do not matter to that
    have hserved := insertOnEdges_ok hb hjumps hslots (by rwa [List.zipIdx_map_fst])
      (fun x hx => mem_predecessors_zipIdx hb hpredecessors hx) h (fun x _ => hnot x.1) hrun
    have hreread : Reread m₁.body ((b.block l).phis.foldl detach m₁.body) :=
      List.foldlRecOn _ _ (Reread.refl _) fun _ hr p _ => hr.detach p
    refine (hreread.resolving hserved).congr fun k' l' hl' => or_congr_right ⟨And.right, ?_⟩
    rintro rfl
    rw [List.zipIdx_map_fst, ← List.count_pos_iff, ← hb.edges, List.count_pos_iff]
    exact ⟨hl', rfl⟩

/-- **Every edge is served in the end.** -/
theorem insertPhiMoves_ok (hb : b.WellFormed) (hsuccessors : ∀ k, (b.block k).successors.Nodup)
    (hjumps : EndsInJumps c b) {a a' : Locals} (h : Resolving c b a.slot? (fun _ _ => False) m.body)
    (hrun : c.insertPhiMoves m a = ((m', a'), none)) :
    (∀ v, a'.slot? v = a.slot? v) ∧ Resolving c b a.slot? (fun _ _ => True) m'.body := by
  have hend := attemptAll_ok
    (motive := fun ks (s : Lowering × Locals) =>
      ks.Nodup ∧ (∀ v, s.2.slot? v = a.slot? v) ∧
        Resolving c b a.slot? (fun _ l => l ∉ ks) s.1.body)
    (fun k ks s s' hstep hs => ?step) hrun ?start
  case step =>
    obtain ⟨hnodup, hslots, hr⟩ := hs
    obtain ⟨hk, hnodup'⟩ := List.nodup_cons.1 hnodup
    obtain ⟨hslots', hr'⟩ :=
      resolveBlock_ok hb hsuccessors hjumps hslots hr (fun _ h => h List.mem_cons_self) hstep
    refine ⟨hnodup', hslots', hr'.congr fun k' l' _ => ?_⟩
    rw [List.mem_cons, not_or]
    by_cases hl' : l' = k
    · simp [hl', hk]
    · simp [hl']
  case start =>
    refine ⟨Table.nodup_indices _, fun _ => rfl, h.congr fun k l hl => iff_of_false id
      fun hnot => hnot ?_⟩
    exact Table.mem_indices.2 ((h.kept.mem_blocks l).2 (hb.successors_mem k l hl))
  exact ⟨hend.2.1, hend.2.2.congr fun _ _ _ => by simp⟩

end PhiMoves

/-- **The commands of every block.** They are what its instructions are translated to, with moves
before the last command that serve every edge out of the block. -/
theorem Body.toStackCode_ok {b : Body} {c : StackCoding} {m : Lowering} {a a' : Locals}
    (hb : b.WellFormed) (hmoves : StackCoding.NoMoves b)
    (hsuccessors : ∀ k, (b.block k).successors.Nodup) (hjumps : PhiMoves.EndsInJumps c b)
    (h : b.toStackCode c a = ((m, a'), none)) :
    (∀ v, a'.slot? v = a.slot? v) ∧ PhiMoves.Resolving c b a.slot? (fun _ _ => True) m.body := by
  obtain ⟨m₁, hm₁, h⟩ := toStackCode_run h
  obtain ⟨hkept, hcode⟩ := StackCoding.insertLoadsAndStores_ok hb hmoves rfl hm₁
  refine PhiMoves.insertPhiMoves_ok hb hsuccessors hjumps
    ⟨hkept, fun k hk => ⟨[], ?_, fun h => absurd rfl h, ?_⟩⟩ h
  · rw [PhiMoves.withMoves_nil]
    exact hcode k hk
  · exact fun _ _ hf => hf.elim

end JvmLowering
