import JvmLowering.Index

/-!
# Tables

A table holds the things of one kind in the order of their numbers. It only grows, so an index stays
good for ever. Reading outside a table gives a default: the equations for `push` and `modify` then
need no bound.
-/

namespace JvmLowering

/-- The things of kind `k`, by number. -/
structure Table (k : Entity) (α : Type) where
  items : Array α := #[]

namespace Table

variable {k : Entity} {α : Type}

def size (t : Table k α) : Nat := t.items.size

/-- The index of the next thing to be pushed. -/
def next (t : Table k α) : Index k := ⟨t.size⟩

instance : Membership (Index k) (Table k α) := ⟨fun t i => i.num < t.size⟩

theorem mem_def {t : Table k α} {i : Index k} : i ∈ t ↔ i.num < t.size := Iff.rfl

instance (t : Table k α) (i : Index k) : Decidable (i ∈ t) :=
  inferInstanceAs (Decidable (i.num < t.size))

def push (t : Table k α) (a : α) : Table k α := ⟨t.items.push a⟩

/-- The thing numbered `i`. -/
def get [Inhabited α] (t : Table k α) (i : Index k) : α := t.items.getD i.num default

/-- Changes the thing numbered `i`; nothing outside the table. -/
def modify (t : Table k α) (i : Index k) (f : α → α) : Table k α := ⟨t.items.modify i.num f⟩

/-- All indices of the table, in order. -/
def indices (t : Table k α) : List (Index k) := (List.range t.size).map Index.mk

/-- The first index whose thing has the property. -/
def find? [Inhabited α] (t : Table k α) (p : α → Bool) : Option (Index k) :=
  t.indices.find? fun i => p (t.get i)

@[simp] theorem size_push (t : Table k α) (a : α) : (t.push a).size = t.size + 1 := by
  simp [push, size]

@[simp] theorem size_modify (t : Table k α) (i : Index k) (f : α → α) :
    (t.modify i f).size = t.size := by
  simp [modify, size]

theorem mem_push {t : Table k α} {a : α} {i : Index k} : i ∈ t.push a ↔ i ∈ t ∨ i = t.next := by
  cases i
  simp [mem_def, next]
  omega

@[simp] theorem mem_modify {t : Table k α} {i j : Index k} {f : α → α} :
    j ∈ t.modify i f ↔ j ∈ t := by
  simp [mem_def]

@[simp] theorem mem_indices {t : Table k α} {i : Index k} : i ∈ t.indices ↔ i ∈ t := by
  cases i
  simp [indices, mem_def]

instance (t : Table k α) (p : Index k → Prop) [DecidablePred p] : Decidable (∀ i ∈ t, p i) :=
  decidable_of_iff (∀ i ∈ t.indices, p i) (by simp)

theorem next_notMem (t : Table k α) : t.next ∉ t := by simp [mem_def, next]

variable [Inhabited α]

theorem get_push (t : Table k α) (a : α) (i : Index k) :
    (t.push a).get i = if i = t.next then a else t.get i := by
  obtain ⟨n⟩ := i
  simp only [push, get, next, size, Index.mk.injEq, Array.getD_eq_getD_getElem?,
    Array.getElem?_push]
  split <;> simp_all

theorem get_modify (t : Table k α) (i j : Index k) (f : α → α) :
    (t.modify i f).get j = if i = j ∧ j ∈ t then f (t.get j) else t.get j := by
  obtain ⟨n⟩ := i
  obtain ⟨m⟩ := j
  simp only [modify, get, mem_def, size, Index.mk.injEq, Array.getD_eq_getD_getElem?,
    Array.getElem?_modify]
  by_cases h : n = m
  · subst h
    by_cases hm : n < t.items.size <;> simp [hm]
  · simp [h]

theorem get_of_notMem {t : Table k α} {i : Index k} (h : i ∉ t) : t.get i = default := by
  simp only [mem_def, size] at h
  simp [get, h]

end Table

end JvmLowering
