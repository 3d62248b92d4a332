import JvmLowering.Proofs.Lowering.NaiveLocals
import JvmLowering.Proofs.Body.Built

/-!
# Local variables in use

An allocation also changes by calls from outside: a value is put into a given local variable, a
fresh one is handed out, or two values share one. The number of local variables is meant to cover
all that are in use, and a fresh one to be apart from them. A call that puts a value into a given
local variable counts one slot only, whatever the type of the value, so this holds for all calls of
a sequence exactly if each of them puts a wide value where both slots have been handed out before.

* `Locals.Call`: a call that changes the allocation;
* `Locals.Guarded`: along some calls, local variables in use are covered, and apart from fresh ones;
* `Locals.AssignsFit`: the calls that keep it so;
* `Locals.guarded_iff_assignsFit`: no other calls do.
-/

namespace JvmLowering.Locals

variable {b : Body} {size : ValueId → Nat} {a a' a'' : Locals} {v other : ValueId} {m n w : Nat}

/-! ### What a call does -/

theorem assign_ok (h : a.assign v n = .ok a') :
    (∀ u, a'.slot? u = if u = v then some n else a.slot? u) ∧ a'.next = max a.next (n + 1) := by
  unfold assign at h
  split at h
  · obtain rfl := Except.ok.inj h
    exact ⟨fun u => slot?_setSlot a v u n, rfl⟩
  · exact absurd h (by simp)

theorem fresh_ok (h : a.fresh w = .ok (n, a')) :
    n = a.next ∧ (∀ u, a'.slot? u = a.slot? u) ∧ a.next ≤ a'.next := by
  unfold fresh at h
  simp only at h
  split at h
  · obtain ⟨rfl, rfl⟩ := Prod.mk.inj (Except.ok.inj h)
    exact ⟨rfl, fun _ => rfl, Nat.le_add_right _ _⟩
  · exact absurd h (by simp)

theorem next_coalesce (a : Locals) (v other : ValueId) : (a.coalesce v other).2.next = a.next := by
  unfold coalesce
  split <;> rfl

/-- A value that shares a local variable has that of the other one, and every other value keeps its
own. -/
theorem slot?_coalesce {u : ValueId} (h : (a.coalesce v other).2.slot? u = some n) :
    u = v ∧ a.slot? other = some n ∨ a.slot? u = some n := by
  unfold coalesce at h
  split at h
  · rename_i slot hslot
    rw [slot?_setSlot] at h
    split at h
    · exact Or.inl ⟨‹u = v›, hslot.trans h⟩
    · exact Or.inr h
  · exact Or.inr h

/-- A call that changes an allocation. -/
inductive Call where
  | assign (v : ValueId) (slot : Nat)
  | fresh (width : Nat)
  | coalesce (v other : ValueId)
  deriving DecidableEq

namespace Call

def apply (a : Locals) : Call → Except Error Locals
  | assign v slot => a.assign v slot
  | fresh width => (a.fresh width).map Prod.snd
  | coalesce v other => .ok (a.coalesce v other).2

/-- Only values of one size share a local variable. -/
def Matched (b : Body) (size : ValueId → Nat) : Call → Prop
  | coalesce v other => v ∈ b.values ∧ other ∈ b.values ∧ size v = size other
  | _ => True

/-- A value that is put into a given local variable takes one slot, or only slots that have been
handed out. -/
def Fits (b : Body) (size : ValueId → Nat) (a : Locals) : Call → Prop
  | assign v slot => v ∈ b.values → size v ≤ 1 ∨ slot + size v ≤ a.next
  | _ => True

instance (b : Body) (size : ValueId → Nat) : (c : Call) → Decidable (c.Matched b size)
  | assign _ _ => isTrue trivial
  | fresh _ => isTrue trivial
  | coalesce _ _ => inferInstanceAs (Decidable (_ ∧ _))

instance (b : Body) (size : ValueId → Nat) (a : Locals) : (c : Call) → Decidable (c.Fits b size a)
  | assign _ _ => inferInstanceAs (Decidable (_ → _))
  | fresh _ => isTrue trivial
  | coalesce _ _ => isTrue trivial

variable {c : Call}

theorem apply_fresh_ok (h : (fresh w).apply a = .ok a') : ∃ n, a.fresh w = .ok (n, a') := by
  cases hf : a.fresh w with
  | error e => simp [apply, hf, Except.map] at h
  | ok p =>
    obtain rfl : p.2 = a' := by simpa [apply, hf, Except.map] using h
    exact ⟨p.1, rfl⟩

theorem next_le_of_apply (h : c.apply a = .ok a') : a.next ≤ a'.next := by
  cases c with
  | assign v slot =>
    rw [(assign_ok h).2]
    exact Nat.le_max_left _ _
  | fresh width =>
    obtain ⟨n, hf⟩ := apply_fresh_ok h
    exact (fresh_ok hf).2.2
  | coalesce v other =>
    obtain rfl := Except.ok.inj h
    exact Nat.le_of_eq (next_coalesce a v other).symm

end Call

/-! ### What one call preserves -/

/-- Every value of the body that has a local variable lies below the next one to be handed out. -/
def Covered (b : Body) (size : ValueId → Nat) (a : Locals) : Prop :=
  ∀ v ∈ b.values, ∀ n, a.slot? v = some n → n + size v ≤ a.next

theorem Covered.apply {c : Call} (h : Covered b size a) (hmatched : c.Matched b size)
    (hfits : c.Fits b size a) (hc : c.apply a = .ok a') : Covered b size a' := by
  intro u hu n hn
  have hnext := Call.next_le_of_apply hc
  cases c with
  | assign v slot =>
    obtain ⟨hslot, hmax⟩ := assign_ok hc
    rw [hslot] at hn
    split at hn
    · rename_i huv
      obtain rfl := Option.some.inj hn
      -- the slot that is assigned fits, and `next` has been raised over it
      have := hfits (huv ▸ hu)
      rw [← huv] at this
      omega
    · exact Nat.le_trans (h u hu n hn) hnext
  | fresh width =>
    obtain ⟨m, hf⟩ := Call.apply_fresh_ok hc
    rw [(fresh_ok hf).2.1] at hn
    exact Nat.le_trans (h u hu n hn) hnext
  | coalesce v other =>
    obtain rfl := Except.ok.inj hc
    rcases slot?_coalesce hn with ⟨rfl, hother⟩ | hu'
    -- the value takes over a slot that is as wide as it needs
    · obtain ⟨-, hmem, hsize⟩ := hmatched
      rw [hsize]
      exact Nat.le_trans (h other hmem n hother) hnext
    · exact Nat.le_trans (h u hu n hu') hnext

/-- If the call leaves everything covered, the value that it puts somewhere fits. -/
theorem Covered.fits {c : Call} (h : Covered b size a') (hc : c.apply a = .ok a') :
    c.Fits b size a := by
  cases c with
  | assign v slot =>
    intro hv
    obtain ⟨hslot, hmax⟩ := assign_ok hc
    have := h v hv slot (by rw [hslot, if_pos rfl])
    omega
  | fresh width => trivial
  | coalesce v other => trivial

/-! ### Sequences of calls -/

def applyAll (a : Locals) (calls : List Call) : Except Error Locals := calls.foldlM Call.apply a

theorem applyAll_cons_ok {c : Call} {calls : List Call} (h : applyAll a (c :: calls) = .ok a'') :
    ∃ a', c.apply a = .ok a' ∧ applyAll a' calls = .ok a'' :=
  foldlM_cons_ok h

theorem applyAll_cons {c : Call} (h : c.apply a = .ok a') (calls : List Call) :
    applyAll a (c :: calls) = applyAll a' calls := by
  rw [applyAll, List.foldlM_cons, h]
  rfl

theorem next_le_of_applyAll {calls : List Call} (h : applyAll a calls = .ok a') :
    a.next ≤ a'.next := by
  induction calls generalizing a with
  | nil =>
    obtain rfl := Except.ok.inj h
    exact Nat.le_refl _
  | cons c calls ih =>
    obtain ⟨t, hc, ht⟩ := applyAll_cons_ok h
    exact Nat.le_trans (Call.next_le_of_apply hc) (ih ht)

/-- All along the calls, every value of the body that has a local variable is covered, and no fresh
local variable that is handed out from then on overlaps its slots. -/
structure Guarded (b : Body) (size : ValueId → Nat) (a : Locals) (calls : List Call) : Prop where
  covered : ∀ before a', before <+: calls → applyAll a before = .ok a' → Covered b size a'
  apart : ∀ before later a' a'', before ++ later <+: calls → applyAll a before = .ok a' →
    applyAll a' later = .ok a'' →
    ∀ v ∈ b.values, ∀ m, a'.slot? v = some m → ∀ w n last, a''.fresh w = .ok (n, last) →
      Apart m (size v) n w

/-- Every value that is put into a given local variable along the calls fits there. -/
def AssignsFit (b : Body) (size : ValueId → Nat) : Locals → List Call → Prop
  | _, [] => True
  | a, c :: calls => ∀ a', c.apply a = .ok a' → c.Fits b size a ∧ AssignsFit b size a' calls

instance decidableAssignsFit (b : Body) (size : ValueId → Nat) :
    (a : Locals) → (calls : List Call) → Decidable (AssignsFit b size a calls)
  | _, [] => isTrue trivial
  | a, c :: calls =>
    match h : c.apply a with
    | .error e => isTrue fun a' h' => by simp [h] at h'
    | .ok a' =>
      have := decidableAssignsFit b size a' calls
      decidable_of_iff (c.Fits b size a ∧ AssignsFit b size a' calls) (by simp [AssignsFit, h])

theorem Covered.applyAll {before calls : List Call} (h : Covered b size a)
    (hmatched : ∀ c ∈ calls, c.Matched b size) (hfits : AssignsFit b size a calls)
    (hinit : before <+: calls) (hrun : applyAll a before = .ok a') : Covered b size a' := by
  induction before generalizing a calls with
  | nil =>
    obtain rfl := Except.ok.inj hrun
    exact h
  | cons c before ih =>
    obtain ⟨later, rfl⟩ := hinit
    obtain ⟨t, hc, ht⟩ := applyAll_cons_ok hrun
    obtain ⟨hfit, hfits⟩ := hfits t hc
    have hcovered := h.apply (hmatched c (List.mem_cons_self ..)) hfit hc
    exact ih hcovered (fun d hd => hmatched d (List.mem_cons_of_mem _ hd)) hfits
      (List.prefix_append _ _) ht

theorem assignsFit_of_covered {calls : List Call}
    (h : ∀ before a', before <+: calls → applyAll a before = .ok a' → Covered b size a') :
    AssignsFit b size a calls := by
  induction calls generalizing a with
  | nil => trivial
  | cons c calls ih =>
    intro t hc
    refine ⟨(h [c] t ⟨calls, rfl⟩ (applyAll_cons hc [])).fits hc, ih fun before a' hinit hrun => ?_⟩
    exact h (c :: before) a' ((List.prefix_cons_inj c).2 hinit)
      ((applyAll_cons hc before).trans hrun)

theorem guarded_iff {calls : List Call} (h : Covered b size a)
    (hmatched : ∀ c ∈ calls, c.Matched b size) :
    Guarded b size a calls ↔ AssignsFit b size a calls := by
  refine ⟨fun hguarded => assignsFit_of_covered hguarded.covered, fun hfits => ?_⟩
  have hcovered : ∀ before a', before <+: calls → applyAll a before = .ok a' → Covered b size a' :=
    fun before a' hinit hrun => h.applyAll hmatched hfits hinit hrun
  refine ⟨hcovered, fun before later a' a'' hinit hbefore hlater v hv m hm w n last hfresh =>
    Or.inl ?_⟩
  -- a fresh local variable begins at the end of what is covered, which only grows
  obtain ⟨rfl, -⟩ := fresh_ok hfresh
  have hinit' : before <+: calls := (List.prefix_append before later).trans hinit
  exact Nat.le_trans (hcovered before a' hinit' hbefore v hv m hm) (next_le_of_applyAll hlater)

theorem assignsFit_one (b : Body) (a : Locals) (calls : List Call) :
    AssignsFit b (fun _ => 1) a calls := by
  induction calls generalizing a with
  | nil => trivial
  | cons c calls ih =>
    intro t _
    refine ⟨?_, ih t⟩
    cases c with
    | assign v slot => exact fun _ => Or.inl (Nat.le_refl 1)
    | fresh width => trivial
    | coalesce v other => trivial

/-- A new allocation, or a naive one. -/
def Initial (b : Body) (a : Locals) : Prop := a = empty ∨ ∃ settings, naive settings b = .ok a

theorem Initial.covered (h : Initial b a) : Covered b b.declaredWidth a := by
  rcases h with rfl | ⟨settings, h⟩
  · exact fun v _ => (packed_empty b).bounded v
  · exact fun v _ => (naive_ok h).2.1.bounded v

/-- **Which calls keep local variables in use apart from fresh ones.** From a new or a naive
allocation on, values of the body are covered all along the calls and fresh local variables are
apart from theirs, exactly if no call puts a wide value where one of its slots has not been handed
out. The first slot of every value is covered in any case. -/
theorem guarded_iff_assignsFit {calls : List Call} (h : Initial b a)
    (hmatched : ∀ c ∈ calls, c.Matched b b.declaredWidth) :
    (Guarded b b.declaredWidth a calls ↔ AssignsFit b b.declaredWidth a calls) ∧
      Guarded b (fun _ => 1) a calls := by
  have hcovered := h.covered
  refine ⟨guarded_iff hcovered hmatched,
    (guarded_iff ?_ fun c hc => ?_).2 (assignsFit_one b a calls)⟩
  · intro v hv n hn
    have := (width_declared (b.value v).type).1
    exact Nat.le_trans (Nat.add_le_add_left this n) (hcovered v hv n hn)
  · have := hmatched c hc
    cases c with
    | assign v slot => trivial
    | fresh width => trivial
    | coalesce v other => exact ⟨this.1, this.2.1, rfl⟩

/-- Two wide constants and a narrow one. -/
def constants : Body := .ofSteps ⟨0⟩
  [.block, .instruction ⟨0⟩ (.constant (.number (.long 1))) [] (some (.field (.base .long))),
   .instruction ⟨0⟩ (.constant (.number (.long 2))) [] (some (.field (.base .long))),
   .instruction ⟨0⟩ (.constant (.number (.int 3))) [] (some (.field (.base .int)))]

/-- Two wide values share two slots that have been handed out, and a narrow one comes after them.
Without the first call the wide values are not covered. -/
theorem guarded_iff_assignsFit_constants :
    Initial constants empty ∧
      Guarded constants constants.declaredWidth empty [.fresh 2, .assign ⟨0⟩ 0, .coalesce ⟨1⟩ ⟨0⟩,
        .assign ⟨2⟩ 2] ∧
      ¬ Guarded constants constants.declaredWidth empty [.assign ⟨0⟩ 0, .coalesce ⟨1⟩ ⟨0⟩,
        .assign ⟨2⟩ 2] := by
  have hinitial : Initial constants empty := Or.inl rfl
  have hmatched : ∀ c ∈ [Call.fresh 2, .assign ⟨0⟩ 0, .coalesce ⟨1⟩ ⟨0⟩, .assign ⟨2⟩ 2],
      c.Matched constants constants.declaredWidth := by
    decide +kernel
  refine ⟨hinitial, (guarded_iff_assignsFit hinitial hmatched).1.2 (by decide +kernel),
    fun hguarded => ?_⟩
  have hfits := (guarded_iff_assignsFit hinitial fun c hc =>
    hmatched c (List.mem_cons_of_mem _ hc)).1.1 hguarded
  exact absurd hfits (by decide +kernel)

/-- A wide value in the first local variable takes two slots. Only one of them counts, and the other
one is handed out again. -/
theorem fresh_overlaps_assigned :
    constants.declaredWidth ⟨0⟩ = 2 ∧ ∃ a last, empty.assign ⟨0⟩ 0 = .ok a ∧ a.slot? ⟨0⟩ = some 0 ∧
      a.next = 1 ∧
      a.fresh 1 = .ok (1, last) ∧ ¬ Apart 0 (constants.declaredWidth ⟨0⟩) 1 1 := by
  exact ⟨by decide +kernel, _, _, rfl, by decide +kernel, rfl, rfl, by decide +kernel⟩

end JvmLowering.Locals
