/-!
# Sums that go down

Loops over finitely many things end because a sum over the things goes down.
-/

namespace JvmLowering

variable {α : Type} {f g : α → Nat}

/-- The sum of a function over a list. -/
def sumOver (f : α → Nat) : List α → Nat
  | [] => 0
  | a :: l => f a + sumOver f l

theorem sumOver_append (f : α → Nat) (l l' : List α) :
    sumOver f (l ++ l') = sumOver f l + sumOver f l' := by
  induction l with
  | nil => exact (Nat.zero_add _).symm
  | cons a l ih =>
    simp only [List.cons_append, sumOver, ih]
    omega

theorem sumOver_le {l : List α} (h : ∀ a ∈ l, g a ≤ f a) : sumOver g l ≤ sumOver f l := by
  induction l with
  | nil => exact Nat.le_refl 0
  | cons a l ih =>
    have ha := h a List.mem_cons_self
    have hl := ih fun b hb => h b (List.mem_cons_of_mem a hb)
    simp only [sumOver]
    omega

theorem sumOver_congr {l : List α} (h : ∀ a ∈ l, g a = f a) : sumOver g l = sumOver f l :=
  Nat.le_antisymm (sumOver_le fun a ha => Nat.le_of_eq (h a ha))
    (sumOver_le fun a ha => Nat.le_of_eq (h a ha).symm)

/-- Where no term goes up and one goes down by `d`, the sum goes down by `d`. -/
theorem sumOver_add_le {l : List α} {a : α} {d : Nat} (ha : a ∈ l) (h : ∀ b ∈ l, g b ≤ f b)
    (hd : g a + d ≤ f a) :
    sumOver g l + d ≤ sumOver f l := by
  induction l with
  | nil => exact absurd ha List.not_mem_nil
  | cons b l ih =>
    have hb := h b List.mem_cons_self
    have hl : ∀ c ∈ l, g c ≤ f c := fun c hc => h c (List.mem_cons_of_mem b hc)
    simp only [sumOver]
    rcases List.mem_cons.mp ha with rfl | ha
    · have := sumOver_le hl
      omega
    · have := ih ha hl
      omega

theorem sumOver_lt {l : List α} {a : α} (ha : a ∈ l) (h : ∀ b ∈ l, g b ≤ f b) (hlt : g a < f a) :
    sumOver g l < sumOver f l :=
  Nat.lt_of_succ_le (sumOver_add_le (d := 1) ha h hlt)

end JvmLowering
