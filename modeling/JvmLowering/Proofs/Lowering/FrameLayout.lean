import JvmLowering.Proofs.Slots
import JvmLowering.Proofs.Lowering.Failure
import JvmLowering.Proofs.Lowering.SlotTiling

/-!
# Local variables in frames

The frame at the entry of a block shows the values that are live there, each at its own local
variable, with unusable slots between them. Where values overlap, the first one in order is kept.
Every value is shown with the width that it is declared with, apart from the receiver of an
initialiser, so values whose local variables do not overlap are all kept. The naive allocation gives
such local variables to the phis of a block and to the arguments.

* `EntryFrames.Shows`: the type that a frame shows for a value;
* `EntryFrames.Keeps`: the values that are kept;
* `EntryFrames.Holds`: a frame that shows some values at their local variables and nothing else;
* `EntryFrames.compute_laid`: what the frame of each block holds;
* `Body.Carries`: what lowering leaves of a body for its frames;
* `EntryFrames.compute_layout`: the frames of blocks, and those of a method with the naive
  allocation.
-/

namespace JvmLowering

namespace EntryFrames

open Locals

variable {g : Hierarchy} {b : Body} {a : Locals} {t : VerifierTyping} {k : BlockId} {v w : ValueId}
  {m n : Nat} {type : VerificationType ClassId} {s : Slots (VerificationType ClassId)}
  {size size' : ValueId → Nat} {values values' : Nat → ValueId → Prop}
  {kept done : List (Nat × ValueId)}

/-! ### The type of a value in a frame -/

/-- The value is the receiver of an initialiser that has not yet called another one. -/
structure IsReceiver (g : Hierarchy) (b : Body) (k : BlockId) (v : ValueId) : Prop where
  atEntry : k = Body.entry
  notStatic : (g.method b.method).isStatic = false
  initialiser : (g.method b.method).name = .init
  argument : ∃ insn, b.definition? v = some insn ∧ insn.operation = .argument 0

theorem isUninitialized_iff : isUninitialized g b k v = true ↔ IsReceiver g b k v := by
  unfold isUninitialized
  simp only [Bool.and_eq_true, Bool.not_eq_true', decide_eq_true_eq, Option.any_eq_true]
  exact ⟨fun ⟨⟨⟨h, h'⟩, h''⟩, h'''⟩ => ⟨h, h', h'', h'''⟩, fun ⟨h, h', h'', h'''⟩ =>
    ⟨⟨⟨h, h'⟩, h''⟩, h'''⟩⟩

instance : Decidable (IsReceiver g b k v) := decidable_of_iff _ isUninitialized_iff

/-- The type that a frame shows for a value. -/
inductive Shows (g : Hierarchy) (b : Body) (t : VerifierTyping) (k : BlockId) (v : ValueId) :
    VerificationType ClassId → Prop
  | receiver (receiver : IsReceiver g b k v) : Shows g b t k v .uninitializedThis
  | base {base : BaseType} (other : ¬ IsReceiver g b k v)
      (declared : (b.value v).type = .field (.base base)) :
      Shows g b t k v (.ofBase base)
  | reference {type : VerificationType ClassId} (other : ¬ IsReceiver g b k v)
      (declared : (b.value v).type.isReference = true)
      (seen : t.typeOf v = .ok type) : Shows g b t k v type

theorem localType_eq_ok (h : localType g b t k v = .ok type) : Shows g b t k v type := by
  unfold localType at h
  split at h
  · simp at h
  split at h
  · rename_i hreceiver
    obtain rfl := Except.ok.inj h
    exact .receiver (isUninitialized_iff.1 hreceiver)
  rename_i hother
  have hother : ¬ IsReceiver g b k v := mt isUninitialized_iff.2 hother
  split at h
  · rename_i base hbase
    obtain rfl := Except.ok.inj h
    exact .base hother hbase
  · rename_i hbase
    refine .reference hother ?_ h
    rcases htype : (b.value v).type with _ | (base | r)
    · rfl
    · exact absurd htype (hbase base)
    · rfl

/-- How many slots a value takes in a frame. -/
def shownWidth (g : Hierarchy) (b : Body) (k : BlockId) (v : ValueId) : Nat :=
  if IsReceiver g b k v then 1 else b.declaredWidth v

theorem width_typeOf (h : t.typeOf v = .ok type) : width type = 1 := by
  unfold VerifierTyping.typeOf at h
  split at h
  · simp at h
  · obtain rfl := Except.ok.inj h
    rfl
  · obtain rfl := Except.ok.inj h
    rfl
  · simp at h

theorem width_ofBase (base : BaseType) :
    width (VerificationType.ofBase base : VerificationType ClassId) = width base := by
  cases base <;> rfl

theorem declaredWidth_of_isReference (h : (b.value v).type.isReference = true) :
    b.declaredWidth v = 1 := by
  unfold Body.declaredWidth
  rcases htype : (b.value v).type with _ | (base | r)
  · rfl
  · simp [htype, DeclaredType.isReference, FieldType.isReference] at h
  · rfl

theorem Shows.width_eq (h : Shows g b t k v type) : width type = shownWidth g b k v := by
  unfold shownWidth
  cases h with
  | receiver hreceiver => rw [if_pos hreceiver]; rfl
  | base hother hbase =>
    rw [if_neg hother, width_ofBase, Body.declaredWidth, hbase]
    rfl
  | reference hother hdeclared hseen =>
    rw [if_neg hother, declaredWidth_of_isReference hdeclared, width_typeOf hseen]

theorem shownWidth_le (g : Hierarchy) (b : Body) (k : BlockId) (v : ValueId) :
    shownWidth g b k v ≤ b.declaredWidth v := by
  unfold shownWidth
  split
  · exact (width_declared (b.value v).type).1
  · exact Nat.le_refl _

theorem shownWidth_eq (h : IsReceiver g b k v → (b.value v).type.isReference = true) :
    shownWidth g b k v = b.declaredWidth v := by
  unfold shownWidth
  split
  · rename_i hreceiver
    exact (declaredWidth_of_isReference (h hreceiver)).symm
  · rfl

/-! ### The values that are kept -/

/-- The value is live at the entry of the block, and this is its local variable. -/
def LiveIn (a : Locals) (k : BlockId) (n : Nat) (v : ValueId) : Prop :=
  v ∈ a.liveAt k ∧ a.slot? v = some n

/-- Of some values with their local variables, those that do not begin inside one before them that
is kept, in order. -/
structure Keeps (size : ValueId → Nat) (values : Nat → ValueId → Prop)
    (kept : List (Nat × ValueId)) : Prop where
  ordered : kept.Pairwise Before
  mem_iff : ∀ n v, (n, v) ∈ kept ↔ values n v ∧ ∀ m w, (m, w) ∈ kept → Before (m, w) (n, v) →
    m + size w ≤ n

theorem Keeps.congr (h : Keeps size values kept) (hvalues : ∀ n v, values n v ↔ values' n v) :
    Keeps size values' kept :=
  ⟨h.ordered, fun n v => (h.mem_iff n v).trans (and_congr_left fun _ => hvalues n v)⟩

theorem Keeps.keep (h : Keeps size values kept) (hlast : ∀ m w, values m w → Before (m, w) (n, v))
    (hroom : ∀ m w, (m, w) ∈ kept → m + size w ≤ n) :
    Keeps size (fun m w => values m w ∨ (m, w) = (n, v)) (kept ++ [(n, v)]) := by
  have hbefore : ∀ m w, (m, w) ∈ kept → Before (m, w) (n, v) :=
    fun m w hmem => hlast m w ((h.mem_iff m w).1 hmem).1
  refine ⟨List.pairwise_append.2 ⟨h.ordered, List.pairwise_singleton _ _, fun x hx y hy => ?_⟩,
    fun m w => ?_⟩
  · rw [List.mem_singleton.1 hy]
    exact hbefore x.1 x.2 hx
  simp only [List.mem_append, List.mem_singleton]
  constructor
  · rintro (hmem | heq)
    -- what was kept is not overlapped by a value that comes after it
    · obtain ⟨hvalue, houtside⟩ := (h.mem_iff m w).1 hmem
      refine ⟨Or.inl hvalue, ?_⟩
      rintro m' w' (hmem' | heq) hlt
      · exact houtside m' w' hmem' hlt
      · rw [heq] at hlt
        exact absurd hlt (hbefore m w hmem).asymm
    -- the last value is kept, since it begins after all that have been
    · obtain ⟨rfl, rfl⟩ := Prod.mk.inj heq
      refine ⟨Or.inr rfl, ?_⟩
      rintro m' w' (hmem' | heq) hlt
      · exact hroom m' w' hmem'
      · rw [heq] at hlt
        exact absurd hlt (Before.irrefl _)
  · rintro ⟨hvalue | heq, houtside⟩
    · exact Or.inl
        ((h.mem_iff m w).2 ⟨hvalue, fun m' w' hmem' hlt => houtside m' w' (Or.inl hmem') hlt⟩)
    · exact Or.inr heq

theorem Keeps.skip (h : Keeps size values kept) (hlast : ∀ m w, values m w → Before (m, w) (n, v))
    (hinside : ∃ m w, (m, w) ∈ kept ∧ n < m + size w) :
    Keeps size (fun m w => values m w ∨ (m, w) = (n, v)) kept := by
  refine ⟨h.ordered,
    fun m w => (h.mem_iff m w).trans ⟨fun ⟨hvalue, houtside⟩ => ⟨Or.inl hvalue, houtside⟩, ?_⟩⟩
  rintro ⟨hvalue | heq, houtside⟩
  · exact ⟨hvalue, houtside⟩
  · obtain ⟨rfl, rfl⟩ := Prod.mk.inj heq
    obtain ⟨m', w', hmem', hlt⟩ := hinside
    exact absurd (houtside m' w' hmem' (hlast m' w' ((h.mem_iff m' w').1 hmem').1))
      (Nat.not_le.2 hlt)

/-- Values that do not overlap are all kept. -/
theorem Keeps.mem_iff_of_apart (h : Keeps size (LiveIn a k) kept)
    (hsize : ∀ v, size v ≤ b.declaredWidth v)
    (hapart : ∀ v w m n, v ≠ w → LiveIn a k m v → LiveIn a k n w →
      Apart m (b.declaredWidth v) n (b.declaredWidth w)) :
    (n, v) ∈ kept ↔ LiveIn a k n v := by
  rw [h.mem_iff, and_iff_left_iff_imp]
  intro hv m w hmem hlt
  have hw := ((h.mem_iff m w).1 hmem).1
  have hne : w ≠ v := by
    rintro rfl
    obtain rfl := Option.some.inj (hw.2.symm.trans hv.2)
    exact Before.irrefl _ hlt
  have hsize' := hsize w
  have hwidth : 1 ≤ b.declaredWidth v := (width_declared (b.value v).type).1
  rcases hapart w v m n hne hw hv with hle | hle
  · omega
  · rcases hlt with hlt | ⟨heq, -⟩ <;> simp only at * <;> omega

/-! ### What a frame holds -/

/-- The local variables show each of some values at its own, with its type, and all other entries
are unusable. They end where the last of these values ends. -/
structure Holds (g : Hierarchy) (b : Body) (t : VerifierTyping) (k : BlockId)
    (values : Nat → ValueId → Prop) (size : ValueId → Nat) (s : Slots (VerificationType ClassId)) :
    Prop where
  shown : ∀ n v, values n v → ∃ type, Shows g b t k v type ∧ (n, type) ∈ s.toList
  others : ∀ n type, (n, type) ∈ s.toList →
    (∃ v, values n v ∧ Shows g b t k v type) ∨ type = .top ∧ ∀ m v, values m v →
      Apart m (size v) n 1
  covered : ∀ n v, values n v → n + size v ≤ s.extent
  reached : s.extent = 0 ∨ ∃ n v, values n v ∧ s.extent = n + size v

theorem Holds.congr (h : Holds g b t k values size s) (hvalues : ∀ n v, values n v ↔ values' n v)
    (hsize : ∀ n v, values n v → size v = size' v) : Holds g b t k values' size' s := by
  refine ⟨fun n v hv => h.shown n v ((hvalues n v).2 hv), fun n type hentry => ?_,
    fun n v hv => ?_, ?_⟩
  · refine (h.others n type hentry).imp (fun ⟨v, hv, hshown⟩ => ⟨v, (hvalues n v).1 hv, hshown⟩)
      fun ⟨htop, hapart⟩ => ⟨htop, ?_⟩
    intro m v hv
    have hv' := (hvalues m v).2 hv
    rw [← hsize m v hv']
    exact hapart m v hv'
  · have hv' := (hvalues n v).2 hv
    rw [← hsize n v hv']
    exact h.covered n v hv'
  · refine h.reached.imp_right fun ⟨n, v, hv, hextent⟩ => ⟨n, v, (hvalues n v).1 hv, ?_⟩
    rw [← hsize n v hv]
    exact hextent

/-- A value that begins at the end or after it is added with unusable slots before it. -/
theorem Holds.place (h : Holds g b t k values size s) (hs : s.Consecutive) (hn : s.extent ≤ n)
    (hshown : Shows g b t k v type) (hwidth : width type = size v) :
    Holds g b t k (fun m w => values m w ∨ (m, w) = (n, v)) size
      ((s.pushAll (List.replicate (n - s.extent) .top)).push type).2 := by
  -- the gap up to the slot is filled, so the new entry begins at it
  have hextent : (s.pushAll (List.replicate (n - s.extent) .top)).extent = n := by
    rw [Slots.extent_pushAll_replicate rfl]
    omega
  have hmem : ∀ m type',
      (m, type') ∈ ((s.pushAll (List.replicate (n - s.extent) .top)).push type).2.toList ↔
      (m, type') ∈ s.toList ∨ (type' = .top ∧ s.extent ≤ m ∧ m < n) ∨ (m, type') = (n, type) := by
    intro m type'
    rw [Slots.toList_push, List.mem_append, List.mem_singleton,
      Slots.mem_toList_pushAll_replicate rfl, hextent, or_assoc, Nat.add_sub_cancel' hn]
  refine ⟨?_, fun m type' hentry => ?_, ?_, Or.inr ⟨n, v, Or.inr rfl, ?_⟩⟩
  -- each value has an entry: an old one, or the new one
  · rintro m w (hw | heq)
    · obtain ⟨type', hshown', hentry⟩ := h.shown m w hw
      exact ⟨type', hshown', (hmem m type').2 (Or.inl hentry)⟩
    · obtain ⟨rfl, rfl⟩ := Prod.mk.inj heq
      exact ⟨type, hshown, (hmem m type).2 (Or.inr (Or.inr rfl))⟩
  -- each entry is that of a value or lies apart from all of them: old, filled in, new
  · rcases (hmem m type').1 hentry with hold | ⟨rfl, hle, hlt⟩ | heq
    · refine (h.others m type' hold).imp (fun ⟨w, hw, hshown'⟩ => ⟨w, Or.inl hw, hshown'⟩)
        fun ⟨htop, hapart⟩ => ⟨htop, ?_⟩
      rintro m' w (hw | heq)
      · exact hapart m' w hw
      · obtain ⟨rfl, rfl⟩ := Prod.mk.inj heq
        subst htop
        have hend := hs.end_le hold
        exact Or.inr (Nat.le_trans (show m + 1 ≤ s.extent from hend) hn)
    · refine Or.inr ⟨rfl, ?_⟩
      rintro m' w (hw | heq)
      · exact Or.inl (Nat.le_trans (h.covered m' w hw) hle)
      · obtain ⟨rfl, rfl⟩ := Prod.mk.inj heq
        exact Or.inr hlt
    · obtain ⟨rfl, rfl⟩ := Prod.mk.inj heq
      exact Or.inl ⟨v, Or.inr rfl, hshown⟩
  · rintro m w (hw | heq)
    · rw [Slots.extent_push, hextent]
      exact Nat.le_trans (Nat.le_trans (h.covered m w hw) hn) (Nat.le_add_right _ _)
    · obtain ⟨rfl, rfl⟩ := Prod.mk.inj heq
      rw [Slots.extent_push, hextent, hwidth]
  · rw [Slots.extent_push, hextent, hwidth]

/-! ### The frame of a block -/

/-- A value is left out if it begins inside, or it is added at its local variable. -/
theorem placeLocal_cases {l l' : Layout} (h : placeLocal g b t k l (n, v) = (l', none)) :
    n < l.locals.extent ∧ l'.locals = l.locals ∨
      l.locals.extent ≤ n ∧ ∃ type, Shows g b t k v type ∧
        l'.locals = ((l.locals.pushAll (List.replicate (n - l.locals.extent) .top)).push
          type).2 := by
  unfold placeLocal at h
  simp only at h
  split at h
  · rename_i hinside
    obtain ⟨rfl, -⟩ := Prod.mk.inj h
    exact Or.inl ⟨hinside, rfl⟩
  · rename_i houtside
    split at h
    · rename_i type htype
      obtain ⟨rfl, -⟩ := Prod.mk.inj h
      exact Or.inr ⟨Nat.not_lt.1 houtside, type, localType_eq_ok htype, rfl⟩
    · simp at h

/-- Local variables of a frame after some live values: those of them that are kept. -/
structure Laid (g : Hierarchy) (b : Body) (t : VerifierTyping) (k : BlockId)
    (done kept : List (Nat × ValueId)) (s : Slots (VerificationType ClassId)) : Prop where
  consecutive : s.Consecutive
  keeps : Keeps (shownWidth g b k) (fun n v => (n, v) ∈ done) kept
  holds : Holds g b t k (fun n v => (n, v) ∈ kept) (shownWidth g b k) s

theorem laid_nil (g : Hierarchy) (b : Body) (t : VerifierTyping) (k : BlockId) :
    Laid g b t k [] [] {} := by
  refine ⟨Slots.consecutive_empty, ⟨List.Pairwise.nil, by simp⟩, by simp, fun n type h => ?_, by
    simp, Or.inl rfl⟩
  simp [Slots.toList] at h

theorem Laid.step {l l' : Layout} (h : Laid g b t k done kept l.locals)
    (hlast : ∀ x ∈ done, Before x (n, v)) (hl : placeLocal g b t k l (n, v) = (l', none)) :
    ∃ kept', Laid g b t k (done ++ [(n, v)]) kept' l'.locals := by
  have hlast' : ∀ m w, (m, w) ∈ done → Before (m, w) (n, v) := fun m w hmem => hlast (m, w) hmem
  rcases placeLocal_cases hl with ⟨hinside, hsame⟩ | ⟨hroom, type, hshown, hadded⟩
  · have hcover : ∃ m w, (m, w) ∈ kept ∧ n < m + shownWidth g b k w := by
      rcases h.holds.reached with hzero | ⟨m, w, hmem, hextent⟩
      · omega
      · exact ⟨m, w, hmem, hextent ▸ hinside⟩
    refine ⟨kept, hsame ▸ h.consecutive, (h.keeps.skip hlast' hcover).congr fun m w => ?_,
      hsame ▸ h.holds⟩
    simp
  · refine ⟨kept ++ [(n, v)], ?_, (h.keeps.keep hlast' fun m w hmem => ?_).congr fun m w => ?_, ?_⟩
    · rw [hadded]
      exact (h.consecutive.pushAll _).push type
    · exact Nat.le_trans (h.holds.covered m w hmem) hroom
    · simp
    · rw [hadded]
      refine (h.holds.place h.consecutive hroom hshown hshown.width_eq).congr (fun m w => ?_)
        fun _ _ _ => rfl
      simp

theorem laid_of_placeLocal {entries : List (Nat × ValueId)} {reports : List Event} {l : Layout}
    (hentries : entries.Pairwise Before)
    (h : attemptAll (placeLocal g b t k) { reports } entries = (l, none)) :
    ∃ kept, Laid g b t k entries kept l.locals := by
  -- the entries so far are those that are not left
  have hrun := attemptAll_ok (motive := fun left (l : Layout) => ∃ done kept,
      done ++ left = entries ∧ Laid g b t k done kept l.locals)
      (fun entry left l l' hl ⟨done, kept, hdone, hlaid⟩ => by
      have hlast : ∀ x ∈ done, Before x entry := by
        rw [← hdone, List.pairwise_append] at hentries
        exact fun x hx => hentries.2.2 x hx entry (List.mem_cons_self ..)
      obtain ⟨kept', hlaid'⟩ := hlaid.step hlast hl
      exact ⟨done ++ [entry], kept', by rw [List.append_assoc, List.singleton_append, hdone],
        hlaid'⟩)
    h ⟨[], [], rfl, laid_nil g b t k⟩
  obtain ⟨done, kept, hdone, hlaid⟩ := hrun
  rw [List.append_nil] at hdone
  exact ⟨kept, hdone ▸ hlaid⟩

theorem pairwise_liveSlots (a : Locals) (k : BlockId) : (liveSlots a k).Pairwise Before := by
  unfold liveSlots
  refine pairwise_before_mergeSort ?_
  have hlive : (a.liveAt k).Nodup := by
    refine (Std.TreeSet.distinct_toList).imp ?_
    rintro v w hne rfl
    exact hne Std.ReflCmp.compare_self
  refine hlive.filterMap fun v w x hv hw => ?_
  obtain ⟨m, -, rfl⟩ := Option.map_eq_some_iff.1 hv
  obtain ⟨n, -, heq⟩ := Option.map_eq_some_iff.1 hw
  exact (Prod.mk.inj heq).2.symm

/-- **The frame of each block**, in the order of the blocks. -/
theorem compute_laid {frames : List (BlockId × Frame ClassId)}
    (h : (compute g b a t).result = .ok frames) :
    frames.map Prod.fst = b.blocks.indices ∧
      ∀ k frame, (k, frame) ∈ frames → ∃ kept, Laid g b t k (liveSlots a k) kept frame.locals := by
  unfold compute at h
  split at h
  · rename_i p hp
    obtain rfl := Except.ok.inj h
    -- the frames that are there and the blocks that are left make up all blocks, in order
    have hrun := attemptAll_ok
        (motive := fun left (p : Progress) => p.frames.reverse.map Prod.fst ++ left =
        b.blocks.indices ∧ ∀ k frame, (k, frame) ∈ p.frames → ∃ kept,
        Laid g b t k (liveSlots a k) kept frame.locals) (fun k left p p' hadd ⟨hdone, hframes⟩ => by
        unfold addFrame at hadd
        split at hadd
        · simp at hadd
        · rename_i l hl
          obtain ⟨rfl, -⟩ := Prod.mk.inj hadd
          refine ⟨by simpa using hdone, fun k' frame hframe => ?_⟩
          rcases List.mem_cons.1 hframe with heq | hframe
          · obtain ⟨rfl, rfl⟩ := Prod.mk.inj heq
            exact laid_of_placeLocal (pairwise_liveSlots a k') hl
          · exact hframes k' frame hframe)
      hp ⟨rfl, by simp⟩
    refine ⟨by simpa using hrun.1, fun k frame hframe => hrun.2 k frame (List.mem_reverse.1 hframe)⟩
  · simp at h

theorem Laid.keeps_live (h : Laid g b t k (liveSlots a k) kept s) :
    Keeps (shownWidth g b k) (LiveIn a k) kept :=
  h.keeps.congr fun _ _ => Body.mem_liveSlots

end EntryFrames

/-! ### What lowering leaves of a body -/

namespace Body

variable {b b' b'' : Body} {k : BlockId}

/-- All values are still there, with their types, and so are the blocks, with their phis. -/
structure Carries (b b' : Body) : Prop where
  mem_values : ∀ v ∈ b.values, v ∈ b'.values
  type : ∀ v ∈ b.values, (b'.value v).type = (b.value v).type
  mem_blocks : ∀ k, k ∈ b'.blocks ↔ k ∈ b.blocks
  phis : ∀ k, (b'.block k).phis = (b.block k).phis

theorem Carries.refl (b : Body) : Carries b b :=
  ⟨fun _ hv => hv, fun _ _ => rfl, fun _ => Iff.rfl, fun _ => rfl⟩

theorem Carries.trans (h : Carries b b') (h' : Carries b' b'') : Carries b b'' where
  mem_values v hv := h'.mem_values v (h.mem_values v hv)
  type v hv := (h'.type v (h.mem_values v hv)).trans (h.type v hv)
  mem_blocks k := (h'.mem_blocks k).trans (h.mem_blocks k)
  phis k := (h'.phis k).trans (h.phis k)

theorem Retains.carries (h : Retains b b') : Carries b b' :=
  ⟨h.mem_values, h.type, h.mem_blocks, h.phis⟩

theorem carries_pushInstruction (b : Body) (insn : Instruction) :
    Carries b (b.pushInstruction insn).2 := by
  refine ⟨fun v hv => (mem_values_pushInstruction b insn).2 hv,
    fun v _ => type_pushInstruction b v insn, fun k => mem_blocks_pushInstruction b insn,
    fun k => ?_⟩
  obtain ⟨throwing, hk⟩ := block_pushInstruction b k insn
  rw [hk]

theorem carries_replaceInput (b : Body) (i : InsnId) (n : Nat) (v : ValueId) :
    Carries b (b.replaceInput i n v) := by
  refine ⟨fun v hv => (mem_values_replaceInput ..).2 hv, fun v _ => type_replaceInput ..,
    fun k => ?_, fun k => ?_⟩
  · rw [blocks_replaceInput]
  · rw [Body.block, Body.block, blocks_replaceInput]

theorem carries_replaceOutput (b : Body) (i : InsnId) (v : ValueId) :
    Carries b (b.replaceOutput i v) :=
  ⟨fun _ hw => (mem_values_replaceOutput ..).2 hw, fun _ _ => type_replaceOutput ..,
    fun _ => Iff.rfl, fun _ => rfl⟩

theorem carries_setInstructions (b : Body) (k : BlockId) (is : List InsnId) :
    Carries b (b.setInstructions k is) := by
  refine ⟨fun _ hv => hv, fun _ _ => rfl, fun _ => Table.mem_modify, fun l => ?_⟩
  rw [setInstructions, block_modifyBlock]
  split <;> rfl

end Body

namespace StackCoding

open Body Emitter

variable {c : StackCoding} {b : Body} {e : Emitter} {l : Lowering} {k : BlockId}

theorem carries_pushEntry (h : b.Carries e.body) (v : ValueId) (type : StackType ClassId) :
    b.Carries (e.pushEntry v type).2.body :=
  h.trans (retains_pushStackValue _ _).carries

theorem carries_pushOperand (h : b.Carries e.body) (c : StackCoding) (k : BlockId)
    (line : Option UInt32) (v : ValueId) :
    b.Carries (c.pushOperand k line e v).2.body := by
  have hentry := carries_pushEntry h v (c.stackType e.body v)
  unfold pushOperand
  simp only
  split
  · exact hentry.trans (carries_pushInstruction _ _)
  · exact hentry.trans (carries_pushInstruction _ _)

theorem carries_loadInput (h : b.Carries e.body) (c : StackCoding) (k : BlockId) (i : InsnId)
    (line : Option UInt32) (input : ValueId × Nat) :
    b.Carries (c.loadInput k i line e input).1.body := by
  obtain ⟨v, n⟩ := input
  have hloads := c.loads k i line e v n
  generalize c.loadInput k i line e (v, n) = outcome at hloads ⊢
  cases hloads with
  | refused => exact h
  | pushed => exact (carries_pushOperand h c k line v).trans (carries_replaceInput _ _ _ _)

theorem carries_storeOutput (h : b.Carries e.body) (c : StackCoding) (k : BlockId) (i : InsnId)
    (line : Option UInt32) (v : ValueId) :
    b.Carries (c.storeOutput k i line e v).body := by
  have hentry := carries_pushEntry h v (c.stackType e.body v)
  have houtput := hentry.trans (carries_replaceOutput _ i (e.pushEntry v (c.stackType e.body v)).1)
  unfold storeOutput
  simp only
  split
  · exact houtput.trans (carries_pushInstruction _ _)
  · exact houtput.trans (carries_pushInstruction _ _)

theorem carries_convert (h : b.Carries e.body) (c : StackCoding) (k : BlockId) (i : InsnId) :
    b.Carries (c.convert k e i).1.body := by
  have hloads := attemptAll_preserves (motive := fun e : Emitter => b.Carries e.body)
    (fun _ input h => carries_loadInput h c k i (e.body.instruction i).line input)
    (e.body.instruction i).inputs.zipIdx h
  have hpopped : ∀ loaded : Emitter, b.Carries loaded.body →
      b.Carries (loaded.popEntries (e.body.instruction i).inputs).body := by
    intro loaded hloaded
    rwa [body_popEntries]
  have hconverts := c.converts k e i
  generalize c.convert k e i = outcome at hconverts ⊢
  cases hconverts with
  | argument | dropped => exact h
  | refused _ _ inputs =>
    rw [inputs] at hloads
    exact hloads
  | effect _ _ inputs | misplaced _ _ inputs =>
    rw [inputs] at hloads
    exact hpopped _ hloads
  | result _ _ inputs =>
    rw [inputs] at hloads
    exact carries_storeOutput (hpopped _ hloads) c k i _ _

theorem carries_convertBlock (h : b.Carries l.body) (c : StackCoding) (k : BlockId) :
    b.Carries (c.convertBlock l k).1.body := by
  have hstart : b.Carries (l.body.setInstructions k []) := h.trans (carries_setInstructions _ _ _)
  have hconverted :
      b.Carries (attemptAll (c.convert k) { l with body := l.body.setInstructions k [] }
      (l.body.block k).instructions).1.body :=
    attemptAll_preserves (motive := fun e : Emitter => b.Carries e.body)
      (fun _ i h => carries_convert h c k i) _ hstart
  have hconverts := c.convertsBlock l k
  generalize c.convertBlock l k = outcome at hconverts ⊢
  cases hconverts with
  | refused run =>
    rw [run] at hconverted
    exact hconverted
  | converted run =>
    rw [run] at hconverted
    exact hconverted.trans (carries_setInstructions _ _ _)

theorem carries_insertLoadsAndStores {m : Lowering}
    (h : c.insertLoadsAndStores { body := b } = (m, none)) :
    b.Carries m.body := by
  obtain ⟨m₁, hrun, rfl⟩ := insertLoadsAndStores_run h
  have hconverted : b.Carries (attemptAll c.convertBlock { body := b } b.blocks.indices).1.body :=
    attemptAll_preserves (motive := fun l : Lowering => b.Carries l.body)
      (fun _ k h => carries_convertBlock h c k) _ (.refl b)
  rwa [hrun] at hconverted

end StackCoding

namespace PhiMoves

open Body StackCoding

variable {c : StackCoding} {b : Body} {e : Emitter} {l : Lowering} {a : Locals} {k : BlockId}

theorem carries_pushAll (h : b.Carries e.body) (c : StackCoding) (k : BlockId)
    (line : Option UInt32) (moves : List PhiMove) :
    b.Carries (pushAll c k line e moves).2.body := by
  induction moves generalizing e with
  | nil => exact h
  | cons m moves ih => exact ih (carries_pushOperand h c k line m.operand)

theorem carries_insert (h : b.Carries l.body) (c : StackCoding) (k : BlockId)
    (moves : List PhiMove) :
    b.Carries (insert c l k moves).body := by
  unfold insert
  simp only
  refine Carries.trans ?_ (carries_setInstructions _ _ _)
  refine List.foldlRecOn (motive := fun e : Emitter => b.Carries e.body) _ _ ?_ fun _ h _ _ =>
    h.trans (carries_pushInstruction _ _)
  exact carries_pushAll (e := { l with emitted := _ }) h c k _ moves

theorem carries_insertOnEdge (h : b.Carries l.body) (c : StackCoding) (a : Locals) (k : BlockId)
    (phis : List ValueId) (edge : BlockId × Nat) :
    b.Carries (insertOnEdge c a k phis l edge).1.body := by
  obtain ⟨source, position⟩ := edge
  have hmoving := moves c a k phis l source position
  generalize insertOnEdge c a k phis l (source, position) = outcome at hmoving ⊢
  cases hmoving with
  | unmoved | critical => exact h
  | moved => exact carries_insert h c source _

theorem carries_detach (h : b.Carries b') (p : ValueId) : b.Carries (detach b' p) :=
  List.foldlRecOn (motive := fun b' => b.Carries b') _ _ h fun _ h v _ =>
    h.trans (retains_removePhiReader v p).carries

/-- Where the replacement of phis has got to: the phis of all blocks that are not left are live
there. -/
structure Marked (b : Body) (a : Locals) (left : List BlockId) (s : Lowering × Locals) : Prop where
  carries : b.Carries s.1.body
  slot : ∀ v, s.2.slot? v = a.slot? v
  kept : ∀ k, ∀ v ∈ a.liveAt k, v ∈ s.2.liveAt k
  live : ∀ k, ∀ v ∈ s.2.liveAt k, v ∈ a.liveAt k ∨ v ∈ (b.block k).phis
  marked : ∀ k ∈ b.blocks, k ∈ left ∨ ∀ p ∈ (b.block k).phis, p ∈ s.2.liveAt k

theorem Marked.resolveBlock {left : List BlockId} {s s' : Lowering × Locals}
    (h : Marked b a (k :: left) s) (hk : resolveBlock c s k = (s', none)) : Marked b a left s' := by
  obtain ⟨l, a'⟩ := s
  have hresolves := resolves c l a' k
  rw [hk] at hresolves
  cases hresolves with
  | unphied hnone =>
    rw [h.carries.phis k] at hnone
    refine ⟨h.carries, h.slot, h.kept, h.live, fun k' hk' => ?_⟩
    rcases h.marked k' hk' with hmem | hlive
    · rcases List.mem_cons.1 hmem with rfl | hmem
      · simp [hnone]
      · exact Or.inl hmem
    · exact Or.inr hlive
  | resolved _ _ hrun =>
    have hedges : b.Carries (attemptAll (insertOnEdge c a' k (l.body.block k).phis) l
        (l.body.block k).predecessors.zipIdx).1.body :=
      attemptAll_preserves (motive := fun l : Lowering => b.Carries l.body)
        (fun _ edge h => carries_insertOnEdge h c a' k _ edge) _ h.carries
    rw [hrun] at hedges
    rw [h.carries.phis k]
    -- the phis of the block become live in it, and nothing stops being live
    have hlive : ∀ k' v, v ∈ ((b.block k).phis.foldl (·.addLive k) a').liveAt k' ↔
        k' = k ∧ v ∈ (b.block k).phis ∨ v ∈ a'.liveAt k' :=
      fun k' v => Locals.mem_liveAt_foldl_addLive
    refine ⟨?carries, fun v => (slot?_foldl_addLive ..).trans (h.slot v),
      fun k' v hv => (hlive k' v).2 (Or.inr (h.kept k' v hv)), fun k' v hv => ?live,
      fun k' hk' => ?marked⟩
    case carries =>
      exact List.foldlRecOn (motive := fun b' => b.Carries b') _ _ hedges fun _ h p _ =>
        carries_detach h p
    case live =>
      rcases (hlive k' v).1 hv with ⟨rfl, hv⟩ | hv
      · exact Or.inr hv
      · exact h.live k' v hv
    case marked =>
      rcases h.marked k' hk' with hmem | hmarked
      · rcases List.mem_cons.1 hmem with rfl | hmem
        · exact Or.inr fun p hp => (hlive k' p).2 (Or.inl ⟨rfl, hp⟩)
        · exact Or.inl hmem
      · exact Or.inr fun p hp => (hlive k' p).2 (Or.inr (hmarked p hp))

end PhiMoves

namespace Body

open PhiMoves

variable {b : Body} {a a' : Locals} {c : StackCoding} {m : Lowering}

theorem toStackCode_marked (h : b.toStackCode c a = ((m, a'), none)) : Marked b a [] (m, a') := by
  obtain ⟨l, hl, h⟩ := toStackCode_run h
  have hcoded := StackCoding.carries_insertLoadsAndStores hl
  refine attemptAll_ok (motive := Marked b a) (fun k left s s' hk hs => hs.resolveBlock hk) h ?_
  refine ⟨hcoded, fun _ => rfl, fun _ _ hv => hv, fun _ _ hv => Or.inl hv, fun k hk => Or.inl ?_⟩
  exact Table.mem_indices.2 ((hcoded.mem_blocks k).2 hk)

theorem Carries.indices_blocks {b' : Body} (h : b.Carries b') :
    b'.blocks.indices = b.blocks.indices := by
  have hsize : b'.blocks.size = b.blocks.size := by
    refine Nat.le_antisymm (Nat.not_lt.1 fun hlt => ?_) (Nat.not_lt.1 fun hlt => ?_)
    · exact Nat.lt_irrefl _ (Table.mem_def.1 ((h.mem_blocks ⟨b.blocks.size⟩).1 hlt))
    · exact Nat.lt_irrefl _ (Table.mem_def.1 ((h.mem_blocks ⟨b'.blocks.size⟩).2 hlt))
  rw [Table.indices, Table.indices, hsize]

theorem Closed.mem_values_of_isArgument {index : Nat} {v : ValueId} (hb : b.Closed)
    (h : b.IsArgument index v) : v ∈ b.values := by
  obtain ⟨i, hi, -, houtput⟩ := h
  exact hb.output i (hb.instructions entry i hi) v houtput

/-- With the naive allocation, what is live in the lowered body was there before, in local variables
that do not overlap. -/
theorem apart_of_naive {settings : Settings} {k : BlockId} (hb : b.Closed)
    (ha : Locals.naive settings b = .ok a) (hm : Marked b a [] (m, a')) (v w : ValueId) (i j : Nat)
    (hne : v ≠ w) (hv : EntryFrames.LiveIn a' k i v) (hw : EntryFrames.LiveIn a' k j w) :
    Locals.Apart i (m.body.declaredWidth v) j (m.body.declaredWidth w) := by
  have hmem : ∀ u n, EntryFrames.LiveIn a' k n u → u ∈ b.values ∧ a.slot? u = some n := by
    rintro u n ⟨hlive, hslot⟩
    refine ⟨?_, (hm.slot u).symm.trans hslot⟩
    rcases hm.live k u hlive with hlive | hphi
    · obtain ⟨index, hindex⟩ := Locals.mem_map_entryArguments.1 ((Locals.naive_live ha k).1 hlive).2
      exact hb.mem_values_of_isArgument hindex
    · exact hb.phis k u hphi
  obtain ⟨hv, hi⟩ := hmem v i hv
  obtain ⟨hw, hj⟩ := hmem w j hw
  rw [declaredWidth, declaredWidth, hm.carries.type v hv, hm.carries.type w hw]
  exact (Locals.naive_ok ha).2.1.disjoint v w i j hne hi hj

/-- Phis and arguments are live, and they have a local variable. -/
theorem exists_liveIn_of_naive {settings : Settings} {k : BlockId} {v : ValueId} (hb : b.Closed)
    (hphis : ∀ k, ∀ p ∈ (b.block k).phis, (b.value p).isPhi = true)
    (ha : Locals.naive settings b = .ok a) (hm : Marked b a [] (m, a')) (hk : k ∈ b.blocks)
    (hv : v ∈ (b.block k).phis ∨ k = entry ∧ ∃ index, b.IsArgument index v) :
    ∃ n, a.slot? v = some n ∧ EntryFrames.LiveIn a' k n v := by
  suffices h : (a.slot? v).isSome ∧ v ∈ a'.liveAt k by
    obtain ⟨n, hn⟩ := Option.isSome_iff_exists.1 h.1
    exact ⟨n, hn, h.2, (hm.slot v).trans hn⟩
  rw [(Locals.naive_ok ha).2.2]
  rcases hv with hphi | ⟨rfl, hargument⟩
  · obtain ⟨l, horigin⟩ := origin_of_isPhi (hphis k v hphi)
    refine ⟨Or.inr ⟨hb.phis k v hphi, by simp [Locals.needsSlot, horigin]⟩, ?_⟩
    exact (hm.marked k hk).resolve_left List.not_mem_nil v hphi
  · have hmem := Locals.mem_map_entryArguments.2 hargument
    exact ⟨Or.inl hmem, hm.kept entry v ((Locals.naive_live ha entry).2 ⟨rfl, hmem⟩)⟩

end Body

namespace EntryFrames

open Locals

/-- **Frames show live values at their local variables.** There is one frame for each block. Entries
follow each other, and of values that overlap those are kept that do not begin inside one before
them. Values that do not overlap are all shown, each at its own local variable, and all else is
unusable. With the naive allocation the phis of each block and the arguments are shown, in any body
in which nothing dangles and blocks list phis only. -/
theorem compute_layout :
    (∀ (g : Hierarchy) (b : Body) (a : Locals) (t : VerifierTyping)
      (frames : List (BlockId × Frame ClassId)),
      (compute g b a t).result = .ok frames → frames.map Prod.fst = b.blocks.indices ∧ ∀ k frame,
        (k, frame) ∈ frames →
        frame.locals.Consecutive ∧
        (∃ kept, Keeps (shownWidth g b k) (LiveIn a k) kept ∧
          Holds g b t k (fun n v => (n, v) ∈ kept) (shownWidth g b k) frame.locals) ∧
        ((∀ v w m n, v ≠ w → LiveIn a k m v → LiveIn a k n w →
          Apart m (b.declaredWidth v) n (b.declaredWidth w)) →
          (∀ v, IsReceiver g b k v → (b.value v).type.isReference = true) →
          Holds g b t k (LiveIn a k) b.declaredWidth frame.locals)) ∧
    ∀ (g : Hierarchy) (b : Body) (settings settings' : Settings) (a a' : Locals)
      (lowered : LoweredMethod),
      b.Closed → (∀ k, ∀ p ∈ (b.block k).phis, (b.value p).isPhi = true) →
        naive settings b = .ok a → settings'.frames = true →
      (b.lower g settings' a).result = (a', .ok lowered) →
      lowered.frames.map Prod.fst = b.blocks.indices ∧ ∀ k frame, (k, frame) ∈ lowered.frames → ∀ v,
        (v ∈ (b.block k).phis ∨ k = Body.entry ∧ ∃ index, b.IsArgument index v) →
        ∃ n type, a.slot? v = some n ∧ Shows g lowered.body lowered.verifier k v type ∧
          (n, type) ∈ frame.locals.toList := by
  refine ⟨fun g b a t frames h => ?_,
    fun g b settings settings' a a' lowered hb hphis ha hframed h => ?_⟩
  · obtain ⟨hblocks, hframes⟩ := compute_laid h
    refine ⟨hblocks, fun k frame hframe => ?_⟩
    obtain ⟨kept, hlaid⟩ := hframes k frame hframe
    -- if nothing overlaps, everything that is live is kept, with its declared width
    have hkeeps := hlaid.keeps_live
    refine ⟨hlaid.consecutive, ⟨kept, hkeeps, hlaid.holds⟩, fun hapart hreceiver => ?_⟩
    refine hlaid.holds.congr (fun n v => hkeeps.mem_iff_of_apart (shownWidth_le g b k) hapart)
      fun n v _ => ?_
    exact shownWidth_eq (hreceiver v)
  · obtain ⟨types, verifier, m, frames, -, -, hcode, hentry, rfl⟩ := Body.lower_eq_ok.1 h
    rw [Body.entryFrames, if_pos hframed] at hentry
    -- the stack code has the same blocks, and its phis and arguments are live on entry
    have hm := Body.toStackCode_marked hcode
    obtain ⟨hblocks, hframes⟩ := compute_laid hentry
    rw [hm.carries.indices_blocks] at hblocks
    refine ⟨hblocks, fun k frame hframe v hv => ?_⟩
    have hk : k ∈ b.blocks := by
      rw [← Table.mem_indices, ← hblocks]
      exact List.mem_map_of_mem hframe
    obtain ⟨kept, hlaid⟩ := hframes k frame hframe
    obtain ⟨n, hslot, hlive⟩ := Body.exists_liveIn_of_naive hb hphis ha hm hk hv
    have hkept := (hlaid.keeps_live.mem_iff_of_apart (shownWidth_le g m.body k)
      (Body.apart_of_naive hb ha hm)).2 hlive
    obtain ⟨type, hshown, hmem⟩ := hlaid.holds.shown n v hkept
    exact ⟨n, type, hslot, hshown, hmem⟩

/-- Two arguments with gaps before them, and two values that overlap at the entry of the other
block. -/
def gapped : Locals :=
  [(⟨0⟩, Body.entry, 1), (⟨1⟩, Body.entry, 5), (⟨3⟩, ⟨1⟩, 0), (⟨4⟩, ⟨1⟩, 1)].foldl
    (fun a (v, k, n) => (a.setSlot v n).addLive k v) empty

/-- The arguments stand where they are, after unusable slots, and of the values that overlap the
first one is kept. With the naive allocation the phis of a loop are shown. -/
theorem compute_layout_gapped :
    (∃ frames, (compute Body.swapHierarchy wideSum gapped {}).result = .ok frames ∧
      frames.map (fun x => (x.1, x.2.locals.toList)) =
        [(Body.entry, [(0, .top), (1, .long), (3, .top), (4, .top), (5, .integer)]),
          (⟨1⟩, [(0, .long)])] ∧
      ∀ frame, (Body.entry, frame) ∈ frames →
        Holds Body.swapHierarchy wideSum {} Body.entry (LiveIn gapped Body.entry)
          wideSum.declaredWidth frame.locals) ∧
    ∃ a a' lowered, naive {} Body.swapLoop = .ok a ∧
      (Body.swapLoop.lower Body.swapHierarchy {} a).result = (a', .ok lowered) ∧
      ∀ k frame, (k, frame) ∈ lowered.frames → ∀ p ∈ (Body.swapLoop.block k).phis, ∃ n type,
        a.slot? p = some n ∧
        Shows Body.swapHierarchy lowered.body lowered.verifier k p type ∧
          (n, type) ∈ frame.locals.toList := by
  constructor
  · have hrun : (compute Body.swapHierarchy wideSum gapped {}).result.toOption.map (·.map fun x =>
      (x.1, x.2.locals.toList)) =
      some [(Body.entry, [(0, .top), (1, .long), (3, .top), (4, .top), (5, .integer)]),
      (⟨1⟩, [(0, .long)])] := by cbv
    have hapart : ∀ v ∈ gapped.liveAt Body.entry, ∀ w ∈ gapped.liveAt Body.entry, v ≠ w →
      ∀ m ∈ gapped.slot? v, ∀ n ∈ gapped.slot? w,
      Apart m (wideSum.declaredWidth v) n (wideSum.declaredWidth w) := by decide +kernel
    have hstatic : (Body.swapHierarchy.method wideSum.method).isStatic = true := by decide +kernel
    cases hframes : (compute Body.swapHierarchy wideSum gapped {}).result with
    | error e => simp [hframes, Except.toOption] at hrun
    | ok frames =>
      rw [hframes] at hrun
      refine ⟨frames, rfl, Option.some.inj hrun, fun frame hframe => ?_⟩
      refine ((compute_layout.1 _ _ _ _ frames hframes).2 _ frame hframe).2.2
        (fun v w m n hne hv hw => ?_) fun v hv => ?_
      · exact hapart v hv.1 w hw.1 hne m hv.2 n hw.2
      · exact absurd hv.notStatic (by simp [hstatic])
  · obtain ⟨a, a', lowered, ha, hlowered, -⟩ := Body.swapLoop_lowered
    have hw := (Body.built_ofSteps _ _ : Body.swapLoop.Built).wellFormed
    obtain ⟨-, hframes⟩ :=
      compute_layout.2 Body.swapHierarchy Body.swapLoop {} {} a a' lowered hw.closed
        (fun k p hp => hw.isPhi_of_mem_phis hp) ha rfl hlowered
    exact ⟨a, a', lowered, ha, hlowered, fun k frame hframe p hp =>
      hframes k frame hframe p (Or.inl hp)⟩

end EntryFrames

end JvmLowering
