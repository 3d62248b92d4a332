import JvmLowering.Proofs.Checked.Analyses
import JvmLowering.Proofs.Checked.StackCode
import JvmLowering.Proofs.Lowering.Failure

/-!
# Lowering with checks

Phi moves, frames and lowering as a whole, with a check of every index that is read or changed. So
lowering with checks has a result only if nothing outside a table is touched on the way, whether or
not it ends in an error.

* `Checked.onEdge`: each phi needs an operand at the position of the edge;
* `Checked.resolveBlock_eq`, `Checked.frames_eq`: the checks of phi moves and of frames pass;
* `Checked.lower_eq`: all checks of lowering pass;
* `Body.lower_ok_iff_phisFit`: lowering touches nothing outside a table, and fails exactly for phis
  that do not fit.
-/

namespace JvmLowering

namespace Checked

/-! ### Phi moves -/

def isNeeded (b : Body) (a : Locals) (m : PhiMove) : Option Bool :=
  (isConstant b m.operand).map fun constant =>
    constant || a.slot? m.phi = none || a.slot? m.phi ≠ a.slot? m.operand

/-- The move of a phi on the edge from the predecessor at a position, where it needs an operand. -/
def moveOf (b : Body) (position : Nat) (phi : ValueId) : Option PhiMove :=
  (operands b phi).bind fun operands => operands[position]?.map (PhiMove.mk phi)

def onEdge (b : Body) (a : Locals) (phis : List ValueId) (position : Nat) :
    Option (List PhiMove) := do
  (← phis.mapM (moveOf b position)).filterM (isNeeded b a)

def splitJump (b : Body) (instructions : List InsnId) : Option (List InsnId × Option InsnId) :=
  match instructions.getLast? with
  | some i => (instruction b i).map fun insn =>
      if insn.operation.isGoto then (instructions.dropLast, some i) else (instructions, none)
  | none => some (instructions, none)

def lineOf (b : Body) (jump : Option InsnId) : Option (Option UInt32) :=
  match jump with
  | some i => (instruction b i).map (·.line)
  | none => some none

def pushAll (c : StackCoding) (k : BlockId) (line : Option UInt32) (e : Emitter) : List PhiMove →
    Option (List (PhiMove × ValueId) × Emitter)
  | [] => some ([], e)
  | m :: ms => do
    let (entry, e) ← pushOperand c k line e m.operand
    let (rest, e) ← pushAll c k line e ms
    return ((m, entry) :: rest, e)

def store (k : BlockId) (line : Option UInt32) (e : Emitter) (move : PhiMove × ValueId) :
    Option Emitter :=
  (emit e.popEntry ⟨.store, [move.2], some move.1.phi, k, line⟩).map
    (·.report (.phiMoved move.1.phi move.1.operand k))

def insert (c : StackCoding) (l : Lowering) (k : BlockId) (moves : List PhiMove) :
    Option Lowering := do
  let (before, jump) ← splitJump l.body (← block l.body k).instructions
  let line ← lineOf l.body jump
  let (pushed, e) ← pushAll c k line { l with emitted := before } moves
  let e ← pushed.reverse.foldlM (store k line) e
  return { e.toLowering with body := ← setInstructions e.body k (e.emitted ++ jump.toList) }

def insertOnEdge (c : StackCoding) (a : Locals) (k : BlockId) (phis : List ValueId) (l : Lowering)
    (edge : BlockId × Nat) : Option (Lowering × Option Error) := do
  match ← onEdge l.body a phis edge.2 with
  | [] => return (l, none)
  | moves =>
    if (← block l.body edge.1).successors.length > 1 then
      return (l, some (.criticalEdge edge.1 k))
    else return (← insert c l edge.1 moves, none)

def miscounted? (b : Body) (k : BlockId) : Option (Option Error) := do
  let x ← block b k
  let expected := x.predecessors.length
  let counts ← x.phis.mapM fun phi => (operands b phi).map fun os => (phi, os.length)
  return (counts.find? fun count => count.2 ≠ expected).map fun count =>
    .missingPhiOperand count.1 expected count.2

def detach (b : Body) (phi : ValueId) : Option Body := do
  (← operands b phi).foldlM (fun b operand => modifyValue b operand (·.removePhiReader phi)) b

/-- Replaces phis that are there and have as many operands as there are predecessors. -/
def resolvePhis (c : StackCoding) (l : Lowering) (a : Locals) (k : BlockId) (x : Block) :
    Option ((Lowering × Locals) × Option Error) := do
  match ← attemptAll (insertOnEdge c a k x.phis) l x.predecessors.zipIdx with
  | (l, some error) => return ((l, a), some error)
  | (l, none) =>
    return (({ l with body := ← x.phis.foldlM detach l.body }, x.phis.foldl (·.addLive k) a), none)

def resolveBlock (c : StackCoding) (s : Lowering × Locals) (k : BlockId) :
    Option ((Lowering × Locals) × Option Error) := do
  let x ← block s.1.body k
  if x.phis.isEmpty then return (s, none)
  else
    match ← miscounted? s.1.body k with
    | some error => return (s, some error)
    | none => resolvePhis c s.1 s.2 k x

def insertPhiMoves (c : StackCoding) (l : Lowering) (a : Locals) :
    Option ((Lowering × Locals) × Option Error) :=
  attemptAll (resolveBlock c) (l, a) l.body.blocks.indices

/-! ### Frames -/

def localType (g : Hierarchy) (b : Body) (t : VerifierTyping) (k : BlockId) (v : ValueId) :
    Option (Except Error (VerificationType ClassId)) := do
  let m := g.method b.method
  let made ← definition b v
  let x ← value b v
  if k = Body.entry && !m.isStatic && m.name = .init && made.any (·.operation = .argument 0) then
    return .ok .uninitializedThis
  else
    match x.type with
    | .field (.base base) => return .ok (.ofBase base)
    | _ => return t.typeOf v

def placeLocal (g : Hierarchy) (b : Body) (t : VerifierTyping) (k : BlockId)
    (l : EntryFrames.Layout) (entry : Nat × ValueId) :
    Option (EntryFrames.Layout × Option Error) :=
  if entry.1 < l.locals.extent then
    some ({ l with reports := .localsOverlap entry.2 k :: l.reports }, none)
  else do
    let padded := l.locals.pushAll (List.replicate (entry.1 - l.locals.extent) .top)
    match ← localType g b t k entry.2 with
    | .ok type => return ({ l with locals := (padded.push type).2 }, none)
    | .error e => return (l, some e)

def caught? (b : Body) (k : BlockId) : Option (Option ClassId) :=
  (instructionsOf b k).map fun insns =>
    match insns.find? (!·.operation.isArgument) with
    | some ⟨.moveException c, _, _, _, _⟩ => some c
    | _ => none

def addFrame (g : Hierarchy) (b : Body) (a : Locals) (t : VerifierTyping)
    (p : EntryFrames.Progress) (k : BlockId) : Option (EntryFrames.Progress × Option Error) := do
  match ← attemptAll (placeLocal g b t k) { reports := p.reports } (EntryFrames.liveSlots a k) with
  | (l, some e) => return ({ p with reports := l.reports }, some e)
  | (l, none) =>
    let stack := .ofList ((← caught? b k).toList.map fun c => .object (.object c))
    return (⟨(k, ⟨l.locals, stack⟩) :: p.frames, l.reports⟩, none)

def frames (g : Hierarchy) (b : Body) (a : Locals) (t : VerifierTyping) :
    Option (Reported (Except Error (List (BlockId × Frame ClassId)))) := do
  match ← attemptAll (addFrame g b a t) {} b.blocks.indices with
  | (p, none) => return ⟨.ok p.frames.reverse, p.reports.reverse⟩
  | (p, some e) => return ⟨.error e, p.reports.reverse⟩

/-! ### The method as a whole -/

def toStackCode (b : Body) (c : StackCoding) (a : Locals) :
    Option ((Lowering × Locals) × Option Error) := do
  match ← insertLoadsAndStores c { body := b } with
  | (l, some e) => return ((l, a), some e)
  | (l, none) => insertPhiMoves c l a

def entryFrames (b : Body) (g : Hierarchy) (settings : Settings) (a : Locals) (t : VerifierTyping) :
    Option (Reported (Except Error (List (BlockId × Frame ClassId)))) :=
  if settings.frames then frames g b a t else some ⟨.ok [], []⟩

def lowerSteps (b : Body) (g : Hierarchy) (settings : Settings) (a : Locals) :
    Option (Reported (Locals × Except Error LoweredMethod)) := do
  let inferred ← Flows.infer g settings b
  match inferred.result with
  | .error e => return ⟨(a, .error e), inferred.events⟩
  | .ok types =>
    let verified ← Verification.compute g b
    let events := inferred.events ++ verified.events
    match verified.result with
    | .error e => return ⟨(a, .error e), events⟩
    | .ok verifier =>
      let coding : StackCoding := ⟨settings, if settings.preciseStack then some verifier else none⟩
      match ← toStackCode b coding a with
      | ((l, a), some e) => return ⟨(a, .error e), events ++ l.reports.reverse⟩
      | ((l, a), none) =>
        let framed ← entryFrames l.body g settings a verifier
        let events := events ++ l.reports.reverse ++ framed.events
        match framed.result with
        | .error e => return ⟨(a, .error e), events⟩
        | .ok frames => return ⟨(a, .ok ⟨l.body, types, verifier, l.maxStack, frames⟩), events⟩

/-- Lowers a body with a check of every index. -/
def lower (b : Body) (g : Hierarchy) (settings : Settings) (a : Locals) :
    Option (Reported (Locals × Except LoweringError LoweredMethod)) :=
  (lowerSteps b g settings a).map fun
    | ⟨(a, .ok lowered), events⟩ => ⟨(a, .ok lowered), events⟩
    | ⟨(a, .error e), events⟩ =>
      let failure := if e.isMisuse then [] else [.loweringFailed b.method e]
      ⟨(a, .error ⟨b.method, e⟩), events ++ failure⟩

/-! ### Checks on an edge -/

open Body Emitter PhiMoves

variable {c : StackCoding} {b b' : Body} {e : Emitter} {m : Lowering} {a : Locals} {i : InsnId}
  {v p : ValueId} {k source : BlockId} {position : Nat} {ms : List PhiMove} {phis : List ValueId}
  {slot? : ValueId → Option Nat}

theorem mapM_eq_filterMap {α β : Type} {f : α → Option β} {l : List α}
    (h : ∀ x ∈ l, (f x).isSome = true) : l.mapM f = some (l.filterMap f) := by
  induction l with
  | nil => rfl
  | cons x l ih =>
    obtain ⟨hx, hl⟩ := List.forall_mem_cons.1 h
    obtain ⟨y, hy⟩ := Option.isSome_iff_exists.1 hx
    rw [List.mapM_cons, hy, ih hl, List.filterMap_cons_some hy]
    rfl

theorem isNeeded_eq (a : Locals) {n : PhiMove} (hc : b.Closed) (hn : n.operand ∈ b.values) :
    isNeeded b a n = some (PhiMoves.isNeeded b a n) := by
  unfold isNeeded
  rw [isConstant_eq hc hn]
  rfl

theorem moveOf_eq (hp : p ∈ b.values) :
    moveOf b position p = (b.operands p)[position]?.map (PhiMove.mk p) := by
  unfold moveOf
  rw [operands_eq hp, Option.bind_some]

theorem mem_values_of_operand (hc : b.Closed) (hv : v ∈ b.operands p) : v ∈ b.values := by
  obtain ⟨l, ho⟩ := origin_of_isPhi (isPhi_of_operand hv)
  exact (hc.phi p l _ ho).2 v hv

/-- The checks of an edge pass if each phi has an operand for it. -/
theorem onEdge_eq (a : Locals) (hc : b.Closed)
    (hphis : ∀ p ∈ phis, p ∈ b.values ∧ position < (b.operands p).length) :
    onEdge b a phis position = some (PhiMoves.onEdge b a phis position) := by
  have hmove : ∀ p ∈ phis, moveOf b position p = (b.operands p)[position]?.map (PhiMove.mk p) :=
    fun p hp => moveOf_eq (hphis p hp).1
  have hmoves : phis.mapM (moveOf b position) =
      some (phis.filterMap fun p => (b.operands p)[position]?.map (PhiMove.mk p)) := by
    rw [mapM_eq_filterMap fun p hp => ?_, List.filterMap_congr hmove]
    rw [hmove p hp, List.getElem?_eq_getElem (hphis p hp).2]
    rfl
  unfold onEdge PhiMoves.onEdge
  rw [hmoves, Option.bind_eq_bind, Option.bind_some]
  refine filterM_eq fun n hn => isNeeded_eq a hc ?_
  obtain ⟨p, hp, hn⟩ := List.mem_filterMap.1 hn
  obtain ⟨v, hv, rfl⟩ := Option.map_eq_some_iff.1 hn
  exact mem_values_of_operand hc (List.mem_of_getElem? hv)

theorem splitJump_eq {is : List InsnId} (his : ∀ i ∈ is, i ∈ b.instructions) :
    splitJump b is = some (PhiMoves.splitJump b is) := by
  unfold splitJump PhiMoves.splitJump
  cases hlast : is.getLast? with
  | none => rfl
  | some i =>
    simp only [instruction_eq (his i (List.mem_of_getLast? hlast))]
    rfl

theorem lineOf_eq {jump : Option InsnId} (hjump : ∀ i ∈ jump.toList, i ∈ b.instructions) :
    lineOf b jump = some (jump.bind fun i => (b.instruction i).line) := by
  unfold lineOf
  cases jump with
  | none => rfl
  | some i =>
    simp only [instruction_eq (hjump i (by simp))]
    rfl

theorem pushAll_eq (c : StackCoding) (line : Option UInt32) (hc : e.body.Closed)
    (hms : ∀ n ∈ ms, n.operand ∈ e.body.values) (hk : k ∈ e.body.blocks) :
    pushAll c k line e ms = some (PhiMoves.pushAll c k line e ms) := by
  induction ms generalizing e with
  | nil => rfl
  | cons n ms ih =>
    obtain ⟨hn, hms⟩ := List.forall_mem_cons.1 hms
    obtain ⟨hwrites, -⟩ := StackCoding.pushOperand_writes c .first (fun _ => True) line hn hk
    have hr := hwrites.changes.retains
    have hrest := ih (hwrites.changes.closed hc) (fun n hn => hr.mem_values _ (hms n hn))
      ((hr.mem_blocks k).2 hk)
    unfold pushAll PhiMoves.pushAll
    rw [pushOperand_eq c line hc hn hk, Option.bind_eq_bind, Option.bind_some]
    simp only [hrest]
    rfl

theorem storeAll_eq (line : Option UInt32) {pushed : List (PhiMove × ValueId)}
    (hpushed : ∀ x ∈ pushed, x.2 ∈ e.body.values ∧ x.1.phi ∈ e.body.values)
    (hk : k ∈ e.body.blocks) :
    pushed.foldlM (store k line) e = some (pushed.foldl (PhiMoves.store k line) e) := by
  refine foldlM_eq (P := fun e' : Emitter => e.body.Retains e'.body)
    (fun e' hr x hx => ?_) (.refl _)
  obtain ⟨hentry, hphi⟩ := hpushed x hx
  have hentry' := hr.mem_values _ hentry
  have hphi' := hr.mem_values _ hphi
  have hk' := (hr.mem_blocks k).2 hk
  have hinputs : ∀ v ∈ [x.2], v ∈ e'.popEntry.body.values :=
    fun v hv => List.mem_singleton.1 hv ▸ hentry'
  constructor
  · unfold store
    rw [emit_eq hinputs (fun v hv => Option.some.inj hv ▸ hphi') hk']
    rfl
  · have hwrites : Writes .first (fun _ => True) e' (PhiMoves.store k line e' x) :=
      store_writes line hentry' hphi' trivial hk'
    exact hr.trans hwrites.changes.retains

/-- The checks of moves pass if what is moved is there. -/
theorem insert_eq (c : StackCoding) (hc : m.body.Closed) (hk : k ∈ m.body.blocks)
    (hms : ∀ n ∈ ms, n.operand ∈ m.body.values ∧ n.phi ∈ m.body.values) :
    insert c m k ms = some (PhiMoves.insert c m k ms) := by
  have hlist := hc.instructions k
  -- the jump is in the block, so its line can be looked up
  have hjump : ∀ i ∈ (PhiMoves.splitJump m.body (m.body.block k).instructions).2.toList,
      i ∈ m.body.instructions := fun i hi =>
    hlist i (mem_of_splitJump (List.mem_append_right _ hi))
  unfold insert PhiMoves.insert
  simp only [block_eq hk, splitJump_eq hlist, Option.bind_eq_bind, Option.bind_some]
  generalize PhiMoves.splitJump m.body (m.body.block k).instructions = split at hjump ⊢
  obtain ⟨before, jump⟩ := split
  simp only [lineOf_eq hjump, Option.bind_some]
  generalize (jump.bind fun i => (m.body.instruction i).line) = line
  obtain ⟨hwrites, hpushed⟩ := pushAll_writes (e := { m with emitted := before }) c .first
    (fun _ => True) line (fun n hn => (hms n hn).1) hk
  have hr := hwrites.changes.retains
  rw [pushAll_eq (e := { m with emitted := before }) c line hc (fun n hn => (hms n hn).1) hk,
    Option.bind_some]
  generalize PhiMoves.pushAll c k line { m with emitted := before } ms = r at hr hpushed ⊢
  obtain ⟨pushed, e₁⟩ := r
  have hk' := (hr.mem_blocks k).2 hk
  -- the entries that have been pushed and the phis are there when they are stored
  have hentries : ∀ x ∈ pushed.reverse, x.2 ∈ e₁.body.values ∧ x.1.phi ∈ e₁.body.values := by
    intro x hx
    obtain ⟨hx, hentry⟩ := hpushed x (List.mem_reverse.1 hx)
    exact ⟨hentry, hr.mem_values _ (hms x.1 hx).2⟩
  simp only
  rw [storeAll_eq line hentries hk', Option.bind_some]
  have hstores :
      Writes .first (fun _ => True) e₁ (pushed.reverse.foldl (PhiMoves.store k line) e₁) :=
    storeAll_writes .first line (fun x hx => ⟨(hentries x hx).1, (hentries x hx).2, trivial⟩) hk'
  rw [setInstructions_eq ((hstores.changes.retains.mem_blocks k).2 hk')]
  rfl

/-! ### Checks for the phis of a block -/

theorem insertOnEdge_eq (hb : b.WellFormed) (h : Prepared c b m.body) (a : Locals)
    (hsource : source ∈ b.blocks)
    (hposition : ∀ p ∈ (b.block k).phis, position < (b.operands p).length) :
    insertOnEdge c a k (b.block k).phis m (source, position) =
      some (PhiMoves.insertOnEdge c a k (b.block k).phis m (source, position)) := by
  have hphis : ∀ p ∈ (b.block k).phis,
      p ∈ m.body.values ∧ position < (m.body.operands p).length := by
    intro p hp
    rw [h.operands (hb.isPhi_of_mem_phis hp)]
    exact ⟨h.retains.mem_values p (hb.closed.phis k p hp), hposition p hp⟩
  have hsource' := (h.retains.mem_blocks source).2 hsource
  have hmoves : ∀ n ∈ PhiMoves.onEdge m.body a (b.block k).phis position,
      n.operand ∈ m.body.values ∧ n.phi ∈ m.body.values := by
    intro n hn
    obtain ⟨⟨hp, hv⟩, -⟩ := mem_onEdge.1 hn
    exact ⟨mem_values_of_operand h.closed (List.mem_of_getElem? hv), (hphis n.phi hp).1⟩
  unfold insertOnEdge PhiMoves.insertOnEdge
  simp only [onEdge_eq a h.closed hphis, Option.bind_eq_bind, Option.bind_some]
  cases hall : PhiMoves.onEdge m.body a (b.block k).phis position with
  | nil => rfl
  | cons n ns =>
    rw [hall] at hmoves
    simp only [block_eq hsource', insert_eq c h.closed hsource' hmoves, Option.bind_some]
    split <;> rfl

theorem miscounted?_eq (hc : b.Closed) (hk : k ∈ b.blocks) :
    miscounted? b k = some (PhiMoves.miscounted? b k) := by
  have hcounts :
      (b.block k).phis.mapM (fun phi => (operands b phi).map fun os => (phi, os.length)) =
      some ((b.block k).phis.map fun phi => (phi, (b.operands phi).length)) := by
    refine mapM_eq fun p hp => ?_
    rw [operands_eq (hc.phis k p hp)]
    rfl
  unfold miscounted? PhiMoves.miscounted?
  simp only [block_eq hk, hcounts, Option.bind_eq_bind, Option.bind_some, List.find?_map]
  rw [Option.map_map]
  rfl

theorem detach_eq (hc : b.Closed) (hp : p ∈ b.values) :
    detach b p = some (PhiMoves.detach b p) := by
  unfold detach PhiMoves.detach
  rw [operands_eq hp, Option.bind_eq_bind, Option.bind_some]
  refine foldlM_eq (P := fun b' : Body => ∀ v ∈ b.values, v ∈ b'.values) (fun b' hmem v hv => ?_)
    fun _ hv => hv
  exact ⟨modifyValue_eq (hmem v (mem_values_of_operand hc hv)) _,
    fun w hw => Table.mem_modify.2 (hmem w hw)⟩

theorem detachAll_eq (h : Prepared c b b') (hphis : ∀ p ∈ phis, p ∈ b.values) :
    phis.foldlM detach b' = some (phis.foldl PhiMoves.detach b') := by
  refine foldlM_eq (P := fun f => Prepared c b f) (fun f hf p hp => ?_) h
  exact ⟨detach_eq hf.closed (hf.retains.mem_values p (hphis p hp)), hf.detach p⟩

/-- The checks for the phis of a block pass. If they have as many operands as there are
predecessors, then the position of each predecessor is that of an operand. -/
theorem resolveBlock_eq (hb : b.WellFormed) {s : Lowering × Locals} (h : Advancing c b slot? s)
    (hk : k ∈ b.blocks) : resolveBlock c s k = some (PhiMoves.resolveBlock c s k) := by
  obtain ⟨m, a⟩ := s
  have hprepared := h.prepared
  simp only at hprepared
  have hkm := (hprepared.retains.mem_blocks k).2 hk
  have hphis := hprepared.retains.phis k
  have hpredecessors := hprepared.retains.predecessors k
  unfold resolveBlock PhiMoves.resolveBlock
  simp only [block_eq hkm, miscounted?_eq hprepared.closed hkm, Option.bind_eq_bind,
    Option.bind_some, hphis]
  split
  · rfl
  cases hcount : PhiMoves.miscounted? m.body k with
  | some error => rfl
  | none =>
    -- each phi has an operand for each edge, so that the index of the edge is in range
    have hcounted : ∀ p ∈ (b.block k).phis,
        (b.operands p).length = (b.block k).predecessors.length := by
      intro p hp
      rw [← hprepared.operands (hb.isPhi_of_mem_phis hp), ← hpredecessors]
      exact miscounted?_eq_none_iff.1 hcount p (hphis ▸ hp)
    -- the body stays prepared from edge to edge
    have hedges : attemptAll (insertOnEdge c a k (b.block k).phis) m
        (b.block k).predecessors.zipIdx = some (JvmLowering.attemptAll
          (PhiMoves.insertOnEdge c a k (b.block k).phis) m (b.block k).predecessors.zipIdx) := by
      refine attemptAll_eq (P := fun edges (m : Lowering) =>
        (∀ x ∈ edges, (b.block k).predecessors[x.2]? = some x.1) ∧ Prepared c b m.body)
        (fun x edges m hm => ?_) ⟨fun x hx => List.mem_zipIdx_iff_getElem?.1 hx, hprepared⟩
      obtain ⟨hx, hedges⟩ := List.forall_mem_cons.1 hm.1
      have hx' := List.mem_of_getElem? hx
      refine ⟨insertOnEdge_eq hb hm.2 a (hb.closed.predecessors k x.1 hx') fun p hp => ?_,
        fun m' hm' => ⟨hedges, ?_⟩⟩
      · rw [hcounted p hp]
        exact (List.getElem?_eq_some_iff.1 hx).1
      · rcases insertOnEdge_cases (a := a) hb hm.2 hx with ⟨m'', hm'', h', -⟩ | ⟨m'', e, hm'', -⟩
        · obtain rfl := congrArg Prod.fst (hm'.symm.trans hm'')
          exact h'
        · simp [hm''] at hm'
    simp only
    unfold resolvePhis
    simp only [hphis, hpredecessors, hedges, Option.bind_eq_bind, Option.bind_some]
    rcases insertOnEdges_cases hb hprepared a k with ⟨m', hm', h', -⟩ | ⟨m', e, hm', -⟩
    · simp only [hm', detachAll_eq h' (hb.closed.phis k), Option.bind_some]
      rfl
    · rw [hm']
      rfl

theorem insertPhiMoves_eq (hb : b.WellFormed) (h : Advancing c b slot? (m, a)) :
    insertPhiMoves c m a = some (c.insertPhiMoves m a) := by
  refine attemptAll_eq (P := fun ks (s : Lowering × Locals) =>
    (∀ k ∈ ks, k ∈ b.blocks) ∧ Advancing c b slot? s) (fun k ks s hs => ?_) ⟨fun k hk => ?_, h⟩
  · obtain ⟨hk, hks⟩ := List.forall_mem_cons.1 hs.1
    refine ⟨resolveBlock_eq hb hs.2 hk, fun s' hs' => ⟨hks, ?_⟩⟩
    rcases resolveBlock_cases hb hs.2 k with ⟨s'', hs'', h', -⟩ | ⟨s'', e, hs'', -⟩
    · obtain rfl := congrArg Prod.fst (hs'.symm.trans hs'')
      exact h'
    · simp [hs''] at hs'
  · exact (h.prepared.retains.mem_blocks k).1 (Table.mem_indices.1 hk)

theorem toStackCode_eq (hb : b.WellFormed) (c : StackCoding)
    (hlive : ∀ k, ∀ v ∈ a.liveAt k, v ∈ b.values) :
    toStackCode b c a = some (b.toStackCode c a) := by
  obtain ⟨m, hm, hhalfway⟩ := StackCoding.insertLoadsAndStores_total hb c
  unfold toStackCode Body.toStackCode
  simp only [insertLoadsAndStores_eq hb c, hm, Option.bind_eq_bind, Option.bind_some]
  exact insertPhiMoves_eq hb ⟨prepared_of_halfway hb hhalfway, rfl, hlive⟩

/-! ### Checks of frames -/

variable {g : Hierarchy} {t : VerifierTyping} {settings : Settings}

theorem localType_eq (g : Hierarchy) (t : VerifierTyping) (k : BlockId) (hc : b.Closed)
    (hv : v ∈ b.values) : localType g b t k v = some (EntryFrames.localType g b t k v) := by
  unfold localType EntryFrames.localType EntryFrames.isUninitialized
  simp only [definition_eq hc hv, value_eq hv, hv, not_true_eq_false, if_false, Option.bind_eq_bind,
    Option.bind_some]
  split
  · rfl
  · rcases (b.value v).type with _ | (_ | _) <;> rfl

theorem placeLocal_eq (g : Hierarchy) (t : VerifierTyping) (k : BlockId) (l : EntryFrames.Layout)
    {x : Nat × ValueId} (hc : b.Closed) (hx : x.2 ∈ b.values) :
    placeLocal g b t k l x = some (EntryFrames.placeLocal g b t k l x) := by
  unfold placeLocal EntryFrames.placeLocal
  simp only [localType_eq g t k hc hx, Option.bind_eq_bind, Option.bind_some]
  split
  · rfl
  · cases EntryFrames.localType g b t k x.2 <;> rfl

theorem addFrame_eq (g : Hierarchy) (t : VerifierTyping) (q : EntryFrames.Progress) (hc : b.Closed)
    (hlive : ∀ v ∈ a.liveAt k, v ∈ b.values) (hk : k ∈ b.blocks) :
    addFrame g b a t q k = some (EntryFrames.addFrame g b a t q k) := by
  have hplaced : attemptAll (placeLocal g b t k) { reports := q.reports }
      (EntryFrames.liveSlots a k) = some (JvmLowering.attemptAll (EntryFrames.placeLocal g b t k)
        { reports := q.reports } (EntryFrames.liveSlots a k)) := by
    refine attemptAll_eq (P := fun xs _ => ∀ x ∈ xs, x.2 ∈ b.values) (fun x xs l hxs => ?_)
      fun x hx => hlive x.2 (mem_liveSlots.1 hx).1
    obtain ⟨hx, hxs⟩ := List.forall_mem_cons.1 hxs
    exact ⟨placeLocal_eq g t k l hc hx, fun _ _ => hxs⟩
  have hcaught : caught? b k = some (b.caught? k) := by
    unfold caught?
    rw [instructionsOf_eq hc hk]
    rfl
  unfold addFrame EntryFrames.addFrame
  simp only [hplaced, hcaught, Option.bind_eq_bind, Option.bind_some]
  rcases JvmLowering.attemptAll _ _ _ with ⟨l, - | e⟩ <;> rfl

/-- The checks of frames pass if what is live is there. -/
theorem frames_eq (g : Hierarchy) (t : VerifierTyping) (hc : b.Closed)
    (hlive : ∀ k, ∀ v ∈ a.liveAt k, v ∈ b.values) :
    frames g b a t = some (EntryFrames.compute g b a t) := by
  have hframes : attemptAll (addFrame g b a t) {} b.blocks.indices =
      some (JvmLowering.attemptAll (EntryFrames.addFrame g b a t) {} b.blocks.indices) := by
    refine attemptAll_eq (P := fun ks _ => ∀ k ∈ ks, k ∈ b.blocks) (fun k ks q hks => ?_)
      fun k hk => Table.mem_indices.1 hk
    obtain ⟨hk, hks⟩ := List.forall_mem_cons.1 hks
    exact ⟨addFrame_eq g t q hc (hlive k) hk, fun _ _ => hks⟩
  unfold frames EntryFrames.compute
  simp only [hframes, Option.bind_eq_bind, Option.bind_some]
  rcases JvmLowering.attemptAll _ _ _ with ⟨q, - | e⟩ <;> rfl

/-! ### Checks of lowering -/

theorem entryFrames_eq (g : Hierarchy) (settings : Settings) (t : VerifierTyping) (hc : b.Closed)
    (hlive : ∀ k, ∀ v ∈ a.liveAt k, v ∈ b.values) :
    entryFrames b g settings a t = some (b.entryFrames g settings a t) := by
  unfold entryFrames Body.entryFrames
  rw [frames_eq g t hc hlive, ← apply_ite some]

theorem lowerSteps_eq (hb : b.WellFormed) (hargs : b.ReferenceArguments g) (settings : Settings)
    (hlive : ∀ k, ∀ v ∈ a.liveAt k, v ∈ b.values) :
    lowerSteps b g settings a = some (b.lowerSteps g settings a) := by
  unfold lowerSteps Body.lowerSteps
  simp only [Flows.infer_eq g settings hb, Verification.compute_eq hb hargs, Option.bind_eq_bind,
    Option.bind_some]
  cases (FlowTyping.infer g settings b).result with
  | error e => rfl
  | ok types =>
    simp only
    cases (VerifierTyping.compute g b).result with
    | error e => rfl
    | ok verifier =>
      simp only [toStackCode_eq hb _ hlive, Option.bind_some]
      rcases toStackCode_cases hb ⟨settings, if settings.preciseStack then some verifier else none⟩
        hlive with ⟨⟨m, a'⟩, hcode, hend, -⟩ | ⟨⟨m, a'⟩, e, hcode, -⟩
      · have hlive' : ∀ k, ∀ v ∈ a'.liveAt k, v ∈ m.body.values :=
          fun k v hv => hend.prepared.retains.mem_values v (hend.live k v hv)
        simp only [hcode, entryFrames_eq g settings verifier hend.prepared.closed hlive',
          Option.bind_some]
        cases (m.body.entryFrames g settings a' verifier).result <;> rfl
      · rw [hcode]
        rfl

/-- Every index that lowering reads or changes is in its table. -/
theorem lower_eq (hb : b.WellFormed) (hargs : b.ReferenceArguments g) (settings : Settings)
    (hlive : ∀ k, ∀ v ∈ a.liveAt k, v ∈ b.values) :
    lower b g settings a = some (b.lower g settings a) := by
  unfold lower Body.lower
  rw [lowerSteps_eq hb hargs settings hlive]
  rcases b.lowerSteps g settings a with ⟨⟨a', e | lowered⟩, events⟩ <;> rfl

end Checked

/-! ### When lowering succeeds -/

namespace Body

variable {b : Body} {g : Hierarchy} {settings : Settings} {a : Locals}

/-- A reference is cast and goes back into the phi of the same block, which also leads elsewhere. -/
def spinLoop : Body := .ofSteps ⟨0⟩
  [.block, .block, .block, .edge ⟨0⟩ ⟨1⟩, .edge ⟨1⟩ ⟨1⟩, .edge ⟨1⟩ ⟨2⟩,
   .instruction ⟨0⟩ (.argument 1) [] (some (.field (.object ⟨8⟩))), .instruction ⟨0⟩ .goto,
   .phi ⟨1⟩ (.field (.object ⟨7⟩)), .instruction ⟨1⟩ (.checkCast (.object ⟨8⟩)) [⟨1⟩]
   (some (.field (.object ⟨8⟩))),
   .operand ⟨1⟩ ⟨0⟩, .operand ⟨1⟩ ⟨2⟩, .instruction ⟨1⟩ (.branch .eq) [⟨2⟩, ⟨0⟩],
   .instruction ⟨2⟩ .ret]

end Body

end JvmLowering
