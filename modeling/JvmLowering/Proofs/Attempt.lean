import JvmLowering.Attempt

/-!
# What steps that may fail preserve

* `bind_eq_ok`: two steps of which none fails;
* `attemptAll_preserves`: what every step preserves, whether it fails or not;
* `attemptAll_cons`, `foldlM_cons_ok`: the first of several steps of which none fails;
* `attemptAll_ok`: what every step that does not fail preserves, if none fails;
* `attemptAll_cases`, `attemptAll_total`: steps that fail only for a reason, or never;
* `attemptAll_together`: steps that are made side by side.
-/

namespace JvmLowering

variable {σ α ε : Type} {step : σ → α → σ × Option ε}

theorem bind_eq_ok {x : Except ε α} {k : α → Except ε σ} {s : σ} (h : x >>= k = .ok s) :
    ∃ a, x = .ok a ∧ k a = .ok s := by
  cases x with
  | error e => exact absurd h (by simp [bind, Except.bind])
  | ok a => exact ⟨a, rfl, h⟩

theorem attemptAll_preserves {motive : σ → Prop} (hstep : ∀ s a, motive s → motive (step s a).1)
    (l : List α) {s : σ} (hs : motive s) : motive (attemptAll step s l).1 := by
  induction l generalizing s with
  | nil => exact hs
  | cons a l ih =>
    have h := hstep s a hs
    unfold attemptAll
    split
    · rename_i s' he
      rw [he] at h
      exact ih h
    · rename_i s' e he
      rwa [he] at h

/-- A run without failure is a first step without failure and the run of the others. -/
theorem attemptAll_cons {a : α} {l : List α} {s s' : σ}
    (h : attemptAll step s (a :: l) = (s', none)) :
    step s a = ((step s a).1, none) ∧ attemptAll step (step s a).1 l = (s', none) := by
  unfold attemptAll at h
  split at h
  · rename_i t he
    rw [he]
    exact ⟨rfl, h⟩
  · simp at h

/-- The same for steps that change nothing when they fail. -/
theorem foldlM_cons_ok {f : σ → α → Except ε σ} {a : α} {l : List α} {s s' : σ}
    (h : (a :: l).foldlM f s = .ok s') :
    ∃ t, f s a = .ok t ∧ l.foldlM f t = .ok s' := by
  rw [List.foldlM_cons] at h
  exact bind_eq_ok h

/-- What holds after some of the items, as a property of the ones that are left, holds in the end of
none. -/
theorem attemptAll_ok {motive : List α → σ → Prop}
    (hstep : ∀ a l s s', step s a = (s', none) → motive (a :: l) s → motive l s') {l : List α}
    {s s' : σ} (h : attemptAll step s l = (s', none)) (hs : motive l s) : motive [] s' := by
  induction l generalizing s with
  | nil =>
    simp only [attemptAll, Prod.mk.injEq, and_true] at h
    rwa [← h]
  | cons a l ih =>
    obtain ⟨ha, hl⟩ := attemptAll_cons h
    exact ih hl (hstep a l s _ ha hs)

/-- Either no step fails, and each has shown something of its item, or one fails for a reason. -/
theorem attemptAll_cases {P : List α → σ → Prop} {Q : α → Prop} {R : ε → Prop}
    (hstep : ∀ a l s, P (a :: l) s → (∃ s', step s a = (s', none) ∧ P l s' ∧ Q a) ∨ ∃ s' e,
      step s a = (s', some e) ∧ R e) {l : List α} {s : σ} (hs : P l s) :
    (∃ s', attemptAll step s l = (s', none) ∧ P [] s' ∧ ∀ a ∈ l, Q a) ∨ ∃ s' e,
      attemptAll step s l = (s', some e) ∧ R e := by
  induction l generalizing s with
  | nil => exact Or.inl ⟨s, rfl, hs, fun _ ha => absurd ha List.not_mem_nil⟩
  | cons a l ih =>
    unfold attemptAll
    rcases hstep a l s hs with ⟨t, ht, hl, ha⟩ | ⟨t, e, ht, he⟩
    · rw [ht]
      rcases ih hl with ⟨s', hs', hend, hall⟩ | hfailed
      · exact Or.inl ⟨s', hs', hend, List.forall_mem_cons.2 ⟨ha, hall⟩⟩
      · exact Or.inr hfailed
    · rw [ht]
      exact Or.inr ⟨t, e, rfl, he⟩

theorem attemptAll_total {P : List α → σ → Prop}
    (hstep : ∀ a l s, P (a :: l) s → ∃ s', step s a = (s', none) ∧ P l s') {l : List α} {s : σ}
    (hs : P l s) : ∃ s', attemptAll step s l = (s', none) ∧ P [] s' := by
  have h := attemptAll_cases (Q := fun _ => True) (R := fun _ => False)
    (fun a l s hs => Or.inl ((hstep a l s hs).imp fun _ h => ⟨h.1, h.2, trivial⟩)) hs
  rcases h with ⟨s', hs', hend, -⟩ | ⟨-, -, -, he⟩
  · exact ⟨s', hs', hend⟩
  · exact he.elim

/-! ### Side by side -/

/-- Both runs end alike, and with the same error if with one. -/
def Together {τ : Type} (R : σ → τ → Prop) (x : σ × Option ε) (y : τ × Option ε) : Prop :=
  R x.1 y.1 ∧ x.2 = y.2

theorem Together.cases {τ : Type} {R : σ → τ → Prop} {x : σ × Option ε} {y : τ × Option ε}
    (h : Together R x y) :
    (∃ s t, R s t ∧ x = (s, none) ∧ y = (t, none)) ∨ ∃ s t e, R s t ∧ x = (s, some e) ∧
      y = (t, some e) := by
  obtain ⟨s, error⟩ := x
  obtain ⟨t, error'⟩ := y
  obtain ⟨hst, rfl⟩ : R s t ∧ error = error' := h
  cases error with
  | none => exact Or.inl ⟨s, t, hst, rfl, rfl⟩
  | some e => exact Or.inr ⟨s, t, e, hst, rfl, rfl⟩

theorem Together.other {τ : Type} {R : σ → τ → Prop} {s : σ} {e : Option ε} {y : τ × Option ε}
    (h : Together R (s, e) y) : ∃ t, R s t ∧ y = (t, e) :=
  ⟨y.1, h.1, Prod.ext rfl h.2.symm⟩

theorem attemptAll_together {τ : Type} {R : σ → τ → Prop} {step' : τ → α → τ × Option ε}
    (hstep : ∀ s t a, R s t → Together R (step s a) (step' t a)) (l : List α) {s : σ}
    {t : τ} (h : R s t) :
    Together R (attemptAll step s l) (attemptAll step' t l) := by
  induction l generalizing s t with
  | nil => exact ⟨h, rfl⟩
  | cons a l ih =>
    unfold attemptAll
    rcases (hstep s t a h).cases with ⟨s', t', hnext, hs, ht⟩ | ⟨s', t', e, hnext, hs, ht⟩
    · rw [hs, ht]
      exact ih hnext
    · rw [hs, ht]
      exact ⟨hnext, rfl⟩

end JvmLowering
