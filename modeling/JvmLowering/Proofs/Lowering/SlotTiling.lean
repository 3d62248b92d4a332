import JvmLowering.Proofs.Lowering.Simulation

/-!
# Local variables without gaps

The naive allocation is one pass over the values that need a local variable, in one order: the
arguments of the entry block by index, and then all others. Each value begins where the one before
it ends, so they tile the local variables from the first one on, and the pass fails only if they are
too wide together.

* `Locals.Places`: some values have been placed one after the other;
* `Locals.naive_eq`: the naive allocation as one pass;
* `Locals.NeedsLocal`: the values that need a local variable;
* `Locals.naive_tiles`: when the naive allocation succeeds, and what it gives.
-/

namespace JvmLowering

namespace Body

variable {b : Body} {vs ws : List ValueId} {n : Nat}

/-- Values that stand one after the other leave no gap. -/
theorem exists_of_lt_widthOf (h : n < b.widthOf vs) :
    ∃ before v after, vs = before ++ v :: after ∧ b.widthOf before ≤ n ∧
      n < b.widthOf before + width (b.value v).type := by
  induction vs generalizing n with
  | nil => simp at h
  | cons v vs ih =>
    rw [widthOf_cons] at h
    by_cases hv : n < width (b.value v).type
    · exact ⟨[], v, vs, rfl, by simp, by simpa using hv⟩
    · obtain ⟨before, w, after, rfl, hle, hlt⟩ := ih (n := n - width (b.value v).type) (by omega)
      refine ⟨v :: before, w, after, rfl, ?_, ?_⟩
      · rw [widthOf_cons]
        omega
      · rw [widthOf_cons]
        omega

/-- The output of an argument instruction of the entry block, with the index of the argument. -/
def IsArgument (b : Body) (index : Nat) (v : ValueId) : Prop :=
  ∃ i ∈ (b.block entry).instructions, (b.instruction i).operation = .argument index ∧
    (b.instruction i).output = some v

/-- Some instruction or some phi reads the value. -/
def IsRead (b : Body) (v : ValueId) : Prop :=
  (∃ i, v ∈ (b.instruction i).inputs) ∨ ∃ p, v ∈ b.operands p

theorem WellFormed.isEmpty_users_iff {v : ValueId} (hb : b.WellFormed) :
    (b.value v).users.isEmpty = false ↔ b.IsRead v := by
  rw [← Bool.not_eq_true, Users.isEmpty_iff, Classical.not_not, Users.Reading, IsRead]
  simp only [hb.mem_readers, hb.mem_phiReaders]

end Body

/-! ### Pairs in order -/

/-- The order of local variables and of arguments: by number, and then by value. -/
def Before (p q : Nat × ValueId) : Prop := p.1 < q.1 ∨ p.1 = q.1 ∧ p.2.num < q.2.num

instance (p q : Nat × ValueId) : Decidable (Before p q) := inferInstanceAs (Decidable (_ ∨ _))

theorem Before.irrefl (p : Nat × ValueId) : ¬ Before p p := by
  rintro (h | ⟨-, h⟩) <;> exact Nat.lt_irrefl _ h

theorem Before.trans {p q r : Nat × ValueId} (h : Before p q) (h' : Before q r) : Before p r := by
  unfold Before at *
  omega

theorem Before.asymm {p q : Nat × ValueId} (h : Before p q) : ¬ Before q p :=
  fun h' => Before.irrefl p (h.trans h')

theorem Before.of_ne {p q : Nat × ValueId} (hne : p ≠ q) : Before p q ∨ Before q p := by
  obtain ⟨m, ⟨v⟩⟩ := p
  obtain ⟨n, ⟨w⟩⟩ := q
  have : m ≠ n ∨ v ≠ w := by
    by_contra h
    exact hne (by simp_all)
  unfold Before
  simp only
  omega

/-- Sorting puts pairs that are all different into order. -/
theorem pairwise_before_mergeSort {l : List (Nat × ValueId)} (hl : l.Nodup) :
    (l.mergeSort fun (i, v) (j, w) => i < j || i = j && v.num ≤ w.num).Pairwise Before := by
  have hsorted : (l.mergeSort fun (i, v) (j, w) => i < j || i = j && v.num ≤ w.num).Pairwise
      fun p q => (p.1 < q.1 || p.1 = q.1 && p.2.num ≤ q.2.num) = true := by
    refine List.pairwise_mergeSort (fun p q r hpq hqr => ?_) (fun p q => ?_) l
    · simp only [Bool.or_eq_true, Bool.and_eq_true, decide_eq_true_eq] at hpq hqr ⊢
      omega
    · simp only [Bool.or_eq_true, Bool.and_eq_true, decide_eq_true_eq]
      omega
  have hnodup : (l.mergeSort fun (i, v) (j, w) => i < j || i = j && v.num ≤ w.num).Nodup :=
    (List.mergeSort_perm _ _).nodup_iff.2 hl
  refine hsorted.imp₂ (fun p q hle hne => ?_) hnodup
  simp only [Bool.or_eq_true, Bool.and_eq_true, decide_eq_true_eq] at hle
  rcases Before.of_ne hne with h | h
  · exact h
  · unfold Before at h
    omega

/-- There is only one way to put pairs into order. -/
theorem eq_of_pairwise_before {l l' : List (Nat × ValueId)} (hl : l.Pairwise Before)
    (hl' : l'.Pairwise Before) (h : ∀ p, p ∈ l ↔ p ∈ l') : l = l' := by
  have hnodup : ∀ l : List (Nat × ValueId), l.Pairwise Before → l.Nodup := by
    intro l hl
    refine List.Pairwise.imp ?_ hl
    rintro p q hpq rfl
    exact Before.irrefl p hpq
  refine List.Perm.eq_of_pairwise (fun p q _ _ hpq hqp => absurd hqp hpq.asymm) hl hl' ?_
  exact (List.perm_ext_iff_of_nodup (hnodup l hl) (hnodup l' hl')).2 h

namespace Locals

variable {b : Body} {a a' a'' : Locals} {v w : ValueId} {k : BlockId} {vs ws : List ValueId}
  {settings : Settings}

/-! ### One value after the other -/

/-- The values of a list have been placed one after the other, and no others. -/
structure Places (b : Body) (vs : List ValueId) (a a' : Locals) : Prop where
  next : a'.next = a.next + b.widthOf vs
  placed : ∀ before v after, vs = before ++ v :: after →
    a'.slot? v = some (a.next + b.widthOf before)
  others : ∀ v, v ∉ vs → a'.slot? v = a.slot? v

theorem Places.nil (b : Body) (a : Locals) : Places b [] a a := by
  refine ⟨by simp, fun before v after h => ?_, fun _ _ => rfl⟩
  simp at h

theorem Places.cons (hp : a.place b v = .ok a') (h : Places b vs a' a'') (hv : v ∉ vs) :
    Places b (v :: vs) a a'' := by
  obtain ⟨hslot, hnext⟩ := place_ok hp
  refine ⟨?_, fun before w after hsplit => ?_, fun w hw => ?_⟩
  · rw [h.next, hnext, Body.widthOf_cons, Nat.add_assoc]
  · cases before with
    | nil =>
      obtain ⟨rfl, rfl⟩ := List.cons.inj hsplit
      rw [h.others v hv, hslot, if_pos rfl, Body.widthOf_nil, Nat.add_zero]
    | cons u before =>
      obtain ⟨rfl, htail⟩ := List.cons.inj hsplit
      rw [h.placed before w after htail, hnext, Body.widthOf_cons, Nat.add_assoc]
  · obtain ⟨hne, hw⟩ : w ≠ v ∧ w ∉ vs := by simpa using hw
    rw [h.others w hw, hslot, if_neg hne]

/-- A value is placed if there is room for it. -/
theorem place_cases (b : Body) (a : Locals) (v : ValueId) :
    (∃ a', a.place b v = .ok a' ∧ a.next + width (b.value v).type ≤ limit) ∨
      a.place b v = .error .tooManyLocals ∧ limit < a.next + width (b.value v).type := by
  have hwidth := (width_declared (b.value v).type).2
  have hmod : width (b.value v).type % (limit + 1) = width (b.value v).type :=
    Nat.mod_eq_of_lt (by rw [limit]; omega)
  unfold place fresh
  simp only [hmod]
  split
  · rename_i hroom
    exact Or.inl ⟨_, rfl, hroom⟩
  · rename_i hroom
    exact Or.inr ⟨rfl, Nat.not_le.1 hroom⟩

/-- Values are placed one after the other if there is room for all of them. -/
theorem foldlM_place_cases (hvs : vs.Nodup) (ha : a.next ≤ limit) :
    (∃ a', vs.foldlM (place b) a = .ok a' ∧ a.next + b.widthOf vs ≤ limit ∧ Places b vs a a') ∨
      vs.foldlM (place b) a = .error .tooManyLocals ∧ limit < a.next + b.widthOf vs := by
  induction vs generalizing a with
  | nil => exact Or.inl ⟨a, rfl, by simpa using ha, .nil b a⟩
  | cons v vs ih =>
    obtain ⟨hv, hvs⟩ := List.nodup_cons.1 hvs
    rw [List.foldlM_cons, Body.widthOf_cons]
    rcases place_cases b a v with ⟨t, hp, hroom⟩ | ⟨hp, hroom⟩
    · have hnext := (place_ok hp).2
      rw [hp]
      rcases ih hvs (a := t) (by omega) with ⟨a', hrest, hall, hplaces⟩ | ⟨hrest, hall⟩
      · exact Or.inl ⟨a', hrest, by omega, .cons hp hplaces hv⟩
      · exact Or.inr ⟨hrest, by omega⟩
    · rw [hp]
      exact Or.inr ⟨rfl, by omega⟩

/-! ### The naive allocation as one pass -/

theorem place_addLive (b : Body) (a : Locals) (k : BlockId) (v w : ValueId) :
    (a.addLive k w).place b v = (a.place b v).map (·.addLive k w) := by
  unfold place fresh
  simp only
  by_cases hroom : a.next + width (b.value v).type % (limit + 1) ≤ limit
  · rw [if_pos hroom, if_pos (show (a.addLive k w).next + _ ≤ limit from hroom)]
    rfl
  · rw [if_neg hroom, if_neg (show ¬ (a.addLive k w).next + _ ≤ limit from hroom)]
    rfl

theorem foldlM_place_addLive (b : Body) (vs : List ValueId) (a : Locals)
    (k : BlockId) (w : ValueId) :
    vs.foldlM (place b) (a.addLive k w) = (vs.foldlM (place b) a).map (·.addLive k w) := by
  induction vs generalizing a with
  | nil => rfl
  | cons v vs ih =>
    rw [List.foldlM_cons, List.foldlM_cons, place_addLive]
    cases a.place b v with
    | error e => rfl
    | ok t => exact ih t

theorem foldlM_place_addLiveAll (b : Body) (vs ws : List ValueId) (a : Locals) (k : BlockId) :
    vs.foldlM (place b) (ws.foldl (·.addLive k) a) = (vs.foldlM (place b) a).map fun a =>
      ws.foldl (·.addLive k) a := by
  induction ws generalizing a with
  | nil =>
    show vs.foldlM (place b) a = (vs.foldlM (place b) a).map id
    cases vs.foldlM (place b) a <;> rfl
  | cons w ws ih =>
    rw [List.foldl_cons, ih, foldlM_place_addLive]
    cases vs.foldlM (place b) a <;> rfl

theorem foldlM_placeArgument (b : Body) (vs : List ValueId) (a : Locals) :
    vs.foldlM (placeArgument b) a = (vs.foldlM (place b) a).map fun a =>
      vs.foldl (·.addLive Body.entry) a := by
  induction vs generalizing a with
  | nil => rfl
  | cons v vs ih =>
    rw [List.foldlM_cons, List.foldlM_cons, placeArgument]
    cases a.place b v with
    | error e => rfl
    | ok t =>
      refine (ih (t.addLive Body.entry v)).trans ?_
      rw [foldlM_place_addLive]
      show _ = (vs.foldlM (place b) t).map _
      cases vs.foldlM (place b) t <;> rfl

/-- Of values that are all different, those that need a local variable and have none are placed. -/
theorem foldlM_placeValue (hvs : vs.Nodup) (a : Locals) :
    vs.foldlM (placeValue settings b) a =
      (vs.filter fun v => a.slot? v = none && needsSlot settings b v).foldlM (place b) a := by
  induction vs generalizing a with
  | nil => rfl
  | cons v vs ih =>
    obtain ⟨hv, hvs⟩ := List.nodup_cons.1 hvs
    rw [List.foldlM_cons, List.filter_cons, placeValue]
    split
    · rw [List.foldlM_cons]
      cases hp : a.place b v with
      | error e => rfl
      | ok t =>
        refine (ih hvs t).trans ?_
        show _ = List.foldlM (place b) t _
        congr 1
        refine List.filter_congr fun w hw => ?_
        rw [(place_ok hp).1, if_neg]
        rintro rfl
        exact hv hw
    · exact ih hvs a

/-- After the arguments, the other values that need a local variable are placed. -/
theorem foldlM_placeValue_after {arguments : List ValueId}
    (ha : arguments.foldlM (place b) empty = .ok a) (settings : Settings) :
    b.values.indices.foldlM (placeValue settings b) (arguments.foldl (·.addLive Body.entry) a) =
      ((b.values.indices.filter fun v => v ∉ arguments && needsSlot settings b v).foldlM
        (place b) a).map
        fun a => arguments.foldl (·.addLive Body.entry) a := by
  have hargs := foldlM_placeArgument b arguments empty
  rw [ha] at hargs
  rw [foldlM_placeValue (Table.nodup_indices _), ← foldlM_place_addLiveAll]
  congr 1
  refine List.filter_congr fun v _ => ?_
  have hslot : (arguments.foldl (·.addLive Body.entry) a).slot? v = none ↔ v ∉ arguments := by
    rw [← Option.not_isSome_iff_eq_none, (placeArguments_ok hargs (packed_empty b)).2 v]
    simp [empty, slot?]
  rw [decide_eq_decide.2 hslot]

/-- The values in the order in which they are placed. -/
def placingOrder (settings : Settings) (b : Body) : List ValueId :=
  (entryArguments b).map Prod.snd ++
    b.values.indices.filter fun v => v ∉ (entryArguments b).map Prod.snd && needsSlot settings b v

/-- The naive allocation places values in one order, and marks the arguments as live. -/
theorem naive_eq (hentry : Body.entry ∈ b.blocks) (settings : Settings) :
    naive settings b = ((placingOrder settings b).foldlM (place b) empty).map fun a =>
      ((entryArguments b).map Prod.snd).foldl (·.addLive Body.entry) a := by
  unfold naive placingOrder
  rw [if_neg (Classical.not_not.2 hentry), List.foldlM_append, foldlM_placeArgument]
  cases ha : ((entryArguments b).map Prod.snd).foldlM (place b) empty with
  | error e => rfl
  | ok a => exact foldlM_placeValue_after ha settings

/-! ### The values that need a local variable -/

/-- What needs a local variable: an argument of the entry block, a phi, or an output that is read,
apart from arguments and from constants that are pushed again where they are read. -/
inductive NeedsLocal (settings : Settings) (b : Body) (v : ValueId) : Prop
  | argument {index : Nat} (argument : b.IsArgument index v)
  | phi {k : BlockId} (mem : v ∈ (b.block k).phis)
  | output {i : InsnId} (output : (b.instruction i).output = some v) (read : b.IsRead v)
      (operation : (b.instruction i).operation.isArgument = false)
      (kept : (b.instruction i).operation.isConstant = true → settings.rematerialize = false)

theorem mem_map_entryArguments : v ∈ (entryArguments b).map Prod.snd ↔
    ∃ index, b.IsArgument index v := by
  simp only [List.mem_map, Prod.exists, exists_eq_right, mem_entryArguments, Body.IsArgument]

theorem needsLocal_iff (hb : b.WellFormed) :
    NeedsLocal settings b v ↔ v ∈ (entryArguments b).map Prod.snd ∨ v ∈ b.values ∧
      needsSlot settings b v = true := by
  rw [mem_map_entryArguments]
  constructor
  -- an argument, a phi, or an output that is read
  · rintro (⟨hargument⟩ | ⟨hphi⟩ | @⟨i, houtput, hread, hoperation, hkept⟩)
    · exact Or.inl ⟨_, hargument⟩
    · obtain ⟨operands, horigin⟩ := (hb.mem_phis _ v).1 hphi
      exact Or.inr ⟨hb.mem_values_of_phi hphi, by simp [needsSlot, horigin]⟩
    · obtain ⟨hmem, horigin⟩ := hb.origin_of_output i v houtput
      refine Or.inr ⟨hmem, ?_⟩
      have husers := hb.isEmpty_users_iff.2 hread
      cases hconstant : (b.instruction i).operation.isConstant
      · simp [needsSlot, horigin, husers, hoperation, hconstant]
      · simp [needsSlot, horigin, husers, hoperation, hkept hconstant]
  · rintro (⟨index, hargument⟩ | ⟨-, hneeded⟩)
    · exact .argument hargument
    · unfold needsSlot at hneeded
      split at hneeded
      · rename_i l operands horigin
        exact .phi ((hb.mem_phis l v).2 ⟨operands, horigin⟩)
      · simp at hneeded
      · rename_i i horigin
        simp only [Bool.and_eq_true, Bool.not_eq_true'] at hneeded
        obtain ⟨⟨husers, hoperation⟩, hkept⟩ := hneeded
        exact .output (hb.output_of_origin v i horigin).2 (hb.isEmpty_users_iff.1 husers) hoperation
          fun hconstant => by simpa [hconstant] using hkept

/-- No instruction of a block that is built is there twice, and no two have one output. -/
theorem nodup_entryArguments (hb : b.WellFormed) : ((entryArguments b).map Prod.snd).Nodup := by
  unfold entryArguments Body.instructionsOf
  refine ((List.mergeSort_perm _ _).map Prod.snd).nodup_iff.2 ?_
  rw [List.filterMap_map, List.map_filterMap]
  refine (hb.instructions_nodup Body.entry).filterMap fun i j v hi hj => ?_
  simp only [Function.comp_apply, Option.mem_def] at hi hj
  split at hi
  · split at hj
    · exact hb.output_inj (by simpa using hi) (by simpa using hj)
    · simp at hj
  · simp at hi

theorem nodup_placingOrder (hb : b.WellFormed) : (placingOrder settings b).Nodup := by
  refine List.nodup_append.2 ⟨nodup_entryArguments hb, (Table.nodup_indices _).filter _,
    fun v hv w hw => ?_⟩
  rintro rfl
  simp [hv] at hw

theorem mem_placingOrder (hb : b.WellFormed) :
    v ∈ placingOrder settings b ↔ NeedsLocal settings b v := by
  rw [needsLocal_iff hb, placingOrder, List.mem_append, List.mem_filter, Table.mem_indices]
  by_cases hv : v ∈ (entryArguments b).map Prod.snd <;> simp [hv]

/-! ### What the naive allocation gives -/

theorem next_foldl_addLive (vs : List ValueId) (a : Locals) (k : BlockId) :
    (vs.foldl (·.addLive k) a).next = a.next :=
  List.foldlRecOn (motive := fun a' : Locals => a'.next = a.next) vs _ rfl fun _ h _ _ => h

/-- The naive allocation fails if there is no room for all values that need a local variable, and
else places them in order. -/
theorem naive_cases (hb : b.WellFormed) (hentry : Body.entry ∈ b.blocks) (settings : Settings) :
    (∃ a, naive settings b = .ok a ∧ b.widthOf (placingOrder settings b) ≤ limit ∧
      Places b (placingOrder settings b) empty a) ∨
      naive settings b = .error .tooManyLocals ∧ limit < b.widthOf (placingOrder settings b) := by
  have hempty : empty.next = 0 := rfl
  have hnodup : (placingOrder settings b).Nodup := nodup_placingOrder hb
  rw [naive_eq hentry]
  rcases foldlM_place_cases (a := empty) hnodup (Nat.zero_le _) with
    ⟨a, ha, hroom, hplaces⟩ | ⟨he, hroom⟩
  · rw [ha]
    refine Or.inl ⟨_, rfl, by omega, ?_, fun before v after h => ?_, fun v hv => ?_⟩
    · rw [next_foldl_addLive, hplaces.next]
    · rw [PhiMoves.slot?_foldl_addLive, hplaces.placed before v after h]
    · rw [PhiMoves.slot?_foldl_addLive, hplaces.others v hv]
  · rw [he]
    exact Or.inr ⟨rfl, by omega⟩

/-- Every slot below the next one belongs to a value. -/
theorem Places.covers (h : Places b vs empty a) {n : Nat} (hn : n < a.next) :
    ∃ v m, a.slot? v = some m ∧ m ≤ n ∧ n < m + width (b.value v).type := by
  rw [h.next, show empty.next = 0 from rfl, Nat.zero_add] at hn
  obtain ⟨before, v, after, hsplit, hle, hlt⟩ := Body.exists_of_lt_widthOf hn
  refine ⟨v, b.widthOf before, ?_, hle, hlt⟩
  rw [h.placed before v after hsplit, show empty.next = 0 from rfl, Nat.zero_add]

/-- The arguments of the entry block are in the first local variables, in the order of their
indices, and of their values where two have one index. -/
structure ArgumentsFirst (b : Body) (a : Locals) (arguments : List (Nat × ValueId)) : Prop where
  ordered : arguments.Pairwise Before
  mem_iff : ∀ index v, (index, v) ∈ arguments ↔ b.IsArgument index v
  slot : ∀ before index v after, arguments = before ++ (index, v) :: after →
    a.slot? v = some (b.widthOf (before.map Prod.snd))
  others : ∀ v n, a.slot? v = some n → (∀ index, ¬ b.IsArgument index v) →
    b.widthOf (arguments.map Prod.snd) ≤ n

theorem Places.argumentsFirst (hb : b.WellFormed) (h : Places b (placingOrder settings b) empty a) :
    ArgumentsFirst b a (entryArguments b) := by
  have hnext : empty.next = 0 := rfl
  refine ⟨?_, fun index v => mem_entryArguments, fun before index v after hsplit => ?_,
    fun v n hv hargument => ?_⟩
  · have hnodup := (nodup_entryArguments hb).of_map
    unfold entryArguments at hnodup ⊢
    exact pairwise_before_mergeSort ((List.mergeSort_perm _ _).nodup_iff.1 hnodup)
  · rw [h.placed (before.map Prod.snd) v (after.map Prod.snd ++ _)
      (by rw [placingOrder, hsplit]; simp; rfl), hnext, Nat.zero_add]
  · have hmem : v ∈ placingOrder settings b := by
      by_contra hv'
      rw [h.others v hv'] at hv
      simp [empty, slot?] at hv
    rcases List.mem_append.1 hmem with hmem | hmem
    · obtain ⟨index, hindex⟩ := mem_map_entryArguments.1 hmem
      exact absurd hindex (hargument index)
    · obtain ⟨before, after, hsplit⟩ := List.append_of_mem hmem
      have hslot := h.placed ((entryArguments b).map Prod.snd ++ before) v after
        (by rw [placingOrder, hsplit, List.append_assoc])
      rw [hv, Body.widthOf_append, hnext, Nat.zero_add] at hslot
      have := Option.some.inj hslot
      omega

/-- Arguments that are numbered from the first one on stand at the sum of the widths of those before
them. -/
theorem ArgumentsFirst.slot?_of_numbered {arguments : List (Nat × ValueId)}
    (h : ArgumentsFirst b a arguments) {n : Nat} {argument : Nat → ValueId}
    (hnumbered : ∀ index v, b.IsArgument index v ↔ index < n ∧ v = argument index)
    {k : Nat} (hk : k < n) :
    a.slot? (argument k) = some (b.widthOf ((List.range k).map argument)) := by
  have hlist : arguments = (List.range n).map fun index => (index, argument index) := by
    refine eq_of_pairwise_before h.ordered ?_ fun p => ?_
    · exact List.pairwise_map.2 (List.pairwise_lt_range.imp fun hlt => Or.inl hlt)
    · obtain ⟨index, v⟩ := p
      rw [h.mem_iff, hnumbered]
      simp [eq_comm]
  obtain ⟨m, rfl⟩ : ∃ m, n = k + (m + 1) := ⟨n - k - 1, by omega⟩
  have hrange : List.range (k + (m + 1)) = List.range k ++ k ::
      ((List.range m).map Nat.succ).map (k + ·) := by
    rw [List.range_add, List.range_succ_eq_map, List.map_cons, Nat.add_zero]
  rw [h.slot ((List.range k).map fun index => (index, argument index)) k (argument k) _
    (by rw [hlist, hrange, List.map_append]; rfl)]
  simp [Function.comp_def]

/-- **The naive allocation tiles the local variables.** It fails only if the values that need a
local variable take more than 65535 slots together. Otherwise exactly these values have one, no two
of them overlap, and they leave no gap. The arguments of the entry block come first, in the order of
their indices, and they alone are live, at the entry of that block. -/
theorem naive_tiles (hb : b.Built) (hentry : Body.entry ∈ b.blocks) (settings : Settings) :
    (∃ needed : List ValueId, needed.Nodup ∧ (∀ v, v ∈ needed ↔ NeedsLocal settings b v) ∧
      ((∃ a, naive settings b = .ok a) ↔ b.widthOf needed ≤ 65535)) ∧
    (∀ e, naive settings b = .error e → e = .tooManyLocals) ∧
    ∀ a, naive settings b = .ok a →
      (∀ v, (a.slot? v).isSome ↔ NeedsLocal settings b v) ∧
      Packed b a ∧ (∀ n < a.next, ∃ v m, a.slot? v = some m ∧ m ≤ n ∧
        n < m + width (b.value v).type) ∧
      (∃ arguments, ArgumentsFirst b a arguments) ∧
      (∀ n argument, (∀ index v, b.IsArgument index v ↔ index < n ∧ v = argument index) →
        ∀ k < n, a.slot? (argument k) = some (b.widthOf ((List.range k).map argument))) ∧
      (∀ v, v ∈ a.liveAt Body.entry ↔ ∃ index, b.IsArgument index v) ∧ ∀ k, k ≠ Body.entry →
        a.liveAt k = [] := by
  have hw := hb.wellFormed
  -- the values are placed in one order, as long as there is room for all of them
  have hcases := naive_cases hw hentry settings
  refine ⟨⟨placingOrder settings b, nodup_placingOrder hw, fun v => mem_placingOrder hw, ?_⟩,
    fun e he => ?_, fun a ha => ?_⟩
  · rcases hcases with ⟨a, ha, hroom, -⟩ | ⟨he, hroom⟩
    · exact iff_of_true ⟨a, ha⟩ hroom
    · exact iff_of_false (by simp [he]) (Nat.not_le.2 hroom)
  · rcases hcases with ⟨a, ha, -⟩ | ⟨he', -⟩
    · simp [ha] at he
    · exact (Except.error.inj (he'.symm.trans he)).symm
  · obtain ⟨-, hpacked, hplaced⟩ := naive_ok ha
    have hplaces : Places b (placingOrder settings b) empty a := by
      rcases hcases with ⟨a', ha', -, hplaces⟩ | ⟨he, -⟩
      · rwa [Except.ok.inj (ha.symm.trans ha')]
      · simp [he] at ha
    have hfirst := hplaces.argumentsFirst hw
    refine ⟨fun v => (hplaced v).trans (needsLocal_iff hw).symm, hpacked,
      fun n hn => hplaces.covers hn, ⟨_, hfirst⟩, fun n argument hnumbered k hk =>
      hfirst.slot?_of_numbered hnumbered hk, fun v => ?_, fun k hk => ?_⟩
    · rw [naive_live ha, mem_map_entryArguments, and_iff_right rfl]
    · exact List.eq_nil_iff_forall_not_mem.2 fun v hv => hk ((naive_live ha k).1 hv).1

/-- Two arguments that are made in the other order, a constant that is not stored, a sum that is,
and a phi that nothing reads. -/
def wideSum : Body := .ofSteps ⟨0⟩
  [.block, .block, .instruction ⟨0⟩ (.argument 1) [] (some (.field (.base .long))),
   .instruction ⟨0⟩ (.argument 0) [] (some (.field (.base .int))),
   .instruction ⟨0⟩ (.constant (.number (.long 1))) [] (some (.field (.base .long))),
   .instruction ⟨0⟩ (.binary .add) [⟨0⟩, ⟨2⟩] (some (.field (.base .long))),
   .instruction ⟨0⟩ .ret [⟨3⟩],
   .phi ⟨1⟩ (.field (.base .double))]

/-- The argument that comes first by index is in the first local variable, the constant has none,
and every slot below the seventh is in use. -/
theorem naive_tiles_wideSum :
    wideSum.Built ∧ Body.entry ∈ wideSum.blocks ∧ ∃ a, naive {} wideSum = .ok a ∧
      wideSum.values.indices.map a.slot? = [some 1, some 0, none, some 3, some 5] ∧ a.next = 7 ∧
        Packed wideSum a ∧
      (∀ n < a.next, ∃ v m, a.slot? v = some m ∧ m ≤ n ∧ n < m + width (wideSum.value v).type) ∧
      (∀ v, v ∈ a.liveAt Body.entry ↔ ∃ index, wideSum.IsArgument index v) ∧ a.liveAt ⟨1⟩ = [] := by
  have hb : wideSum.Built := Body.built_ofSteps _ _
  have hentry : Body.entry ∈ wideSum.blocks := by decide +kernel
  have hrun : (naive {} wideSum).toOption.map (fun a =>
    (wideSum.values.indices.map a.slot?, a.next)) =
    some ([some 1, some 0, none, some 3, some 5], 7) := by
    -- sorting does not reduce in the kernel, the placing does
    have hsorted : entryArguments wideSum = [(0, ⟨1⟩), (1, ⟨0⟩)] := by
      change [((1 : Nat), (⟨0⟩ : ValueId)), (0, ⟨1⟩)].mergeSort _ = _
      simp [List.mergeSort, List.MergeSort.Internal.splitInTwo]
    rw [naive, hsorted]
    decide +kernel
  obtain ⟨-, -, hok⟩ := naive_tiles hb hentry {}
  cases ha : naive {} wideSum with
  | error e => simp [ha, Except.toOption] at hrun
  | ok a =>
    obtain ⟨-, hpacked, hcovered, -, -, hentryLive, hlive⟩ := hok a ha
    rw [ha] at hrun
    obtain ⟨hslots, hnext⟩ := Prod.mk.inj (Option.some.inj hrun)
    exact ⟨hb, hentry, a, rfl, hslots, hnext, hpacked, hcovered, hentryLive, hlive ⟨1⟩ (by decide)⟩

end Locals

end JvmLowering
