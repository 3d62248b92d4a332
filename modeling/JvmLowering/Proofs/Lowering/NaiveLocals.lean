import JvmLowering.Lowering.Locals
import JvmLowering.Proofs.Attempt

/-!
# A local variable for each value

The naive allocation hands out ranges of local variables that do not overlap, as wide as the values
that they are for, to all arguments of the entry block and to all values that need one.

* `Packed`: the ranges that have been handed out;
* `naive_ok`: what the naive allocation gives;
* `naive_live`: what is live after it.
-/

namespace JvmLowering

/-- Everything that is declared is one or two slots wide. -/
theorem width_declared (t : DeclaredType ClassId) : 1 ≤ width t ∧ width t ≤ 2 := by
  rcases t with _ | (b | r)
  · exact ⟨Nat.le_refl 1, Nat.le_succ 1⟩
  · cases b <;> decide
  · exact ⟨Nat.le_refl 1, Nat.le_succ 1⟩

/-- How many slots a value takes by its declared type. -/
def Body.declaredWidth (b : Body) (v : ValueId) : Nat := width (b.value v).type

/-- How many slots some values take together. -/
def Body.widthOf (b : Body) (vs : List ValueId) : Nat := sumOver b.declaredWidth vs

@[simp] theorem Body.widthOf_nil (b : Body) : b.widthOf [] = 0 := rfl

@[simp] theorem Body.widthOf_cons (b : Body) (v : ValueId) (vs : List ValueId) :
    b.widthOf (v :: vs) = width (b.value v).type + b.widthOf vs := rfl

@[simp] theorem Body.widthOf_append (b : Body) (vs ws : List ValueId) :
    b.widthOf (vs ++ ws) = b.widthOf vs + b.widthOf ws :=
  sumOver_append _ vs ws

namespace Locals

/-- The slots from `m` on and the slots from `n` on do not overlap. -/
def Apart (m width n width' : Nat) : Prop := m + width ≤ n ∨ n + width' ≤ m

instance (m width n width' : Nat) : Decidable (Apart m width n width') :=
  inferInstanceAs (Decidable (_ ∨ _))

variable {b : Body} {a a' : Locals} {v w : ValueId} {m n : Nat} {settings : Settings}

/-- The local variables of values lie below the next one to be handed out, and those of different
values do not overlap. -/
structure Packed (b : Body) (a : Locals) : Prop where
  bounded : ∀ v n, a.slot? v = some n → n + width (b.value v).type ≤ a.next
  disjoint : ∀ v w m n, v ≠ w → a.slot? v = some m → a.slot? w = some n →
    m + width (b.value v).type ≤ n ∨ n + width (b.value w).type ≤ m

theorem packed_empty (b : Body) : Packed b empty := by
  constructor <;> simp [empty, slot?]

/-- Different values are in different local variables. -/
theorem Packed.slot_inj (h : Packed b a) (hv : a.slot? v = some n) (hw : a.slot? w = some n) :
    v = w := by
  refine Classical.byContradiction fun hne => ?_
  have hwv := (width_declared (b.value v).type).1
  have hww := (width_declared (b.value w).type).1
  rcases h.disjoint v w n n hne hv hw with hlt | hlt <;> omega

theorem slot?_setSlot (a : Locals) (v w : ValueId) (n : Nat) :
    (a.setSlot v n).slot? w = if w = v then some n else a.slot? w := by
  simp only [setSlot, slot?, Std.TreeMap.getElem?_insert, Std.LawfulEqCmp.compare_eq_iff_eq,
    eq_comm (a := v)]

/-- A fresh local variable begins where the others end. -/
theorem place_ok (h : a.place b v = .ok a') :
    (∀ w, a'.slot? w = if w = v then some a.next else a.slot? w) ∧
      a'.next = a.next + width (b.value v).type := by
  have hwidth := (width_declared (b.value v).type).2
  unfold place fresh at h
  simp only at h
  split at h
  · obtain rfl := Except.ok.inj h
    refine ⟨fun w => slot?_setSlot _ v w _, ?_⟩
    show a.next + width (b.value v).type % (limit + 1) = _
    rw [Nat.mod_eq_of_lt (by rw [limit]; omega)]
  · exact absurd h (by simp [bind, Except.bind])

theorem Packed.place (h : Packed b a) (hp : a.place b v = .ok a') : Packed b a' := by
  obtain ⟨hslot, hnext⟩ := place_ok hp
  constructor
  · intro w n hw
    rw [hslot] at hw
    split at hw
    · rename_i hwv
      have := Option.some.inj hw
      rw [hwv]
      omega
    · have := h.bounded w n hw
      omega
  · intro u w m n hne hu hw
    rw [hslot] at hu hw
    split at hu <;> split at hw
    · exact absurd (‹u = v›.trans ‹w = v›.symm) hne
    · have := h.bounded w n hw
      have := Option.some.inj hu
      omega
    · have := h.bounded u m hu
      have := Option.some.inj hw
      omega
    · exact h.disjoint u w m n hne hu hw

theorem isSome_slot?_place (hp : a.place b v = .ok a') :
    (a'.slot? w).isSome ↔ (a.slot? w).isSome ∨ w = v := by
  rw [(place_ok hp).1]
  split <;> simp [*]

theorem slot?_addLive (a : Locals) (k : BlockId) (v w : ValueId) :
    (a.addLive k v).slot? w = a.slot? w := rfl

theorem placeArgument_ok (h : a.placeArgument b v = .ok a') :
    ∃ t, a.place b v = .ok t ∧ a' = t.addLive Body.entry v := by
  unfold placeArgument at h
  cases hp : a.place b v with
  | error e =>
    rw [hp] at h
    exact absurd h (by simp [bind, Except.bind])
  | ok t =>
    rw [hp] at h
    exact ⟨t, rfl, (Except.ok.inj h).symm⟩

theorem placeArguments_ok {l : List ValueId} (h : l.foldlM (placeArgument b) a = .ok a')
    (ha : Packed b a) :
    Packed b a' ∧ ∀ v, (a'.slot? v).isSome ↔ (a.slot? v).isSome ∨ v ∈ l := by
  induction l generalizing a with
  | nil =>
    obtain rfl := Except.ok.inj h
    exact ⟨ha, fun v => by simp⟩
  | cons v l ih =>
    obtain ⟨s, hs, hl⟩ := foldlM_cons_ok h
    obtain ⟨t, hp, rfl⟩ := placeArgument_ok hs
    have ht := ha.place hp
    obtain ⟨hpacked, hplaced⟩ := ih hl ⟨ht.bounded, ht.disjoint⟩
    refine ⟨hpacked, fun w => ?_⟩
    rw [hplaced, slot?_addLive, isSome_slot?_place hp, List.mem_cons, or_assoc]

theorem placeValues_ok {l : List ValueId} (h : l.foldlM (placeValue settings b) a = .ok a')
    (ha : Packed b a) :
    Packed b a' ∧ ∀ v, (a'.slot? v).isSome ↔ (a.slot? v).isSome ∨ v ∈ l ∧
      needsSlot settings b v = true := by
  induction l generalizing a with
  | nil =>
    obtain rfl := Except.ok.inj h
    exact ⟨ha, fun v => by simp⟩
  | cons v l ih =>
    obtain ⟨s, hs, hl⟩ := foldlM_cons_ok h
    unfold placeValue at hs
    split at hs
    · rename_i hneeded
      obtain ⟨hpacked, hplaced⟩ := ih hl (ha.place hs)
      refine ⟨hpacked, fun w => ?_⟩
      rw [hplaced, isSome_slot?_place hs]
      by_cases hwv : w = v
      · simp_all
      · simp [hwv]
    -- it has a slot, or it needs none
    · rename_i hskip
      obtain rfl := Except.ok.inj hs
      obtain ⟨hpacked, hplaced⟩ := ih hl ha
      refine ⟨hpacked, fun w => ?_⟩
      rw [hplaced]
      by_cases hwv : w = v
      · subst hwv
        cases hw : a.slot? w <;> simp_all
      · simp [hwv]

theorem naive_eq_ok (h : naive settings b = .ok a) :
    Body.entry ∈ b.blocks ∧ ∃ placed,
      ((entryArguments b).map Prod.snd).foldlM (placeArgument b) empty = .ok placed ∧
      b.values.indices.foldlM (placeValue settings b) placed = .ok a := by
  unfold naive at h
  split at h
  · exact absurd h (by simp [throw, throwThe, MonadExceptOf.throw, bind, Except.bind])
  · rename_i hentry
    refine ⟨Classical.not_not.1 hentry, ?_⟩
    cases hargs : ((entryArguments b).map Prod.snd).foldlM (placeArgument b) empty with
    | error e =>
      simp only [hargs] at h
      exact absurd h (by simp [bind, Except.bind])
    | ok placed =>
      simp only [hargs] at h
      exact ⟨placed, rfl, h⟩

/-- **The naive allocation** places the arguments of the entry block and the values that need a
local variable, and nothing else, without overlaps. -/
theorem naive_ok (h : naive settings b = .ok a) :
    Body.entry ∈ b.blocks ∧ Packed b a ∧
      ∀ v, (a.slot? v).isSome ↔ v ∈ (entryArguments b).map Prod.snd ∨ v ∈ b.values ∧
        needsSlot settings b v = true := by
  obtain ⟨hentry, placed, hargs, hvalues⟩ := naive_eq_ok h
  obtain ⟨hpacked, harguments⟩ := placeArguments_ok hargs (packed_empty b)
  obtain ⟨hpacked, hplaced⟩ := placeValues_ok hvalues hpacked
  refine ⟨hentry, hpacked, fun v => ?_⟩
  rw [hplaced, harguments, Table.mem_indices]
  simp [empty, slot?]

/-! ### What is live -/

theorem mem_liveAt_addLive {k l : BlockId} :
    w ∈ (a.addLive k v).liveAt l ↔ l = k ∧ w = v ∨ w ∈ a.liveAt l := by
  unfold addLive liveAt
  simp only [Std.TreeSet.mem_toList, Std.TreeMap.getD_insert, Std.LawfulEqCmp.compare_eq_iff_eq]
  split
  · rename_i hkl
    simp only [Std.TreeSet.mem_insert, Std.LawfulEqCmp.compare_eq_iff_eq, hkl, true_and,
      eq_comm (a := v)]
  · rename_i hkl
    simp [Ne.symm hkl]

theorem mem_liveAt_foldl_addLive {k l : BlockId} {vs : List ValueId} :
    v ∈ (vs.foldl (·.addLive k) a).liveAt l ↔ l = k ∧ v ∈ vs ∨ v ∈ a.liveAt l := by
  induction vs generalizing a with
  | nil => simp
  | cons w vs ih =>
    rw [List.foldl_cons, ih, mem_liveAt_addLive, List.mem_cons, and_or_left, or_assoc, or_left_comm]

theorem live_place (h : a.place b v = .ok a') : a'.live = a.live := by
  unfold place fresh at h
  simp only at h
  split at h
  · obtain rfl := Except.ok.inj h
    rfl
  · exact absurd h (by simp [bind, Except.bind])

theorem placeArguments_live {l : List ValueId} (h : l.foldlM (placeArgument b) a = .ok a')
    (k : BlockId) :
    v ∈ a'.liveAt k ↔ k = Body.entry ∧ v ∈ l ∨ v ∈ a.liveAt k := by
  induction l generalizing a with
  | nil =>
    obtain rfl := Except.ok.inj h
    simp
  | cons w l ih =>
    obtain ⟨s, hs, hl⟩ := foldlM_cons_ok h
    obtain ⟨t, hp, rfl⟩ := placeArgument_ok hs
    have hlive : t.liveAt k = a.liveAt k := by rw [liveAt, live_place hp, liveAt]
    rw [ih hl, mem_liveAt_addLive, hlive, List.mem_cons, and_or_left, or_assoc, or_left_comm]

theorem live_placeValues {l : List ValueId} (h : l.foldlM (placeValue settings b) a = .ok a') :
    a'.live = a.live := by
  induction l generalizing a with
  | nil =>
    obtain rfl := Except.ok.inj h
    rfl
  | cons v l ih =>
    obtain ⟨s, hs, hl⟩ := foldlM_cons_ok h
    rw [ih hl]
    unfold placeValue at hs
    split at hs
    · exact live_place hs
    · obtain rfl := Except.ok.inj hs
      rfl

/-- After the naive allocation the arguments of the entry block are live at its entry, and nothing
else is anywhere. -/
theorem naive_live (h : naive settings b = .ok a) (k : BlockId) :
    v ∈ a.liveAt k ↔ k = Body.entry ∧ v ∈ (entryArguments b).map Prod.snd := by
  obtain ⟨-, placed, hargs, hvalues⟩ := naive_eq_ok h
  have hlive : a.liveAt k = placed.liveAt k := by rw [liveAt, live_placeValues hvalues, liveAt]
  rw [hlive, placeArguments_live hargs]
  simp [empty, liveAt]

end Locals

end JvmLowering
