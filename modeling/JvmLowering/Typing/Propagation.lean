import JvmLowering.Error
import JvmLowering.FlowType.Ascent
import JvmLowering.Measure
import JvmLowering.Worklist

/-!
# Propagation of types

A worklist algorithm that moves the flow types of values up until they are stable. What a value
should have, which values hang on it, and which updates are refused is given by a `Flow`. The
algorithm ends for every flow: a step that changes a type moves it up, and any other step shortens
the worklist.

* `step_descends`: every step lowers `State.potential`.
-/

namespace JvmLowering

/-! ### Types of values -/

/-- The flow types of the values that have one; all others have `bottom`. -/
structure TypeMap where
  entries : Std.TreeMap ValueId FlowType := ∅

namespace TypeMap

def get? (t : TypeMap) (v : ValueId) : Option FlowType := t.entries[v]?

def get (t : TypeMap) (v : ValueId) : FlowType := t.entries.getD v .bottom

def set (t : TypeMap) (v : ValueId) (type : FlowType) : TypeMap := ⟨t.entries.insert v type⟩

/-- How many values have a type. -/
def size (t : TypeMap) : Nat := t.entries.size

theorem get_set (t : TypeMap) (v w : ValueId) (type : FlowType) :
    (t.set v type).get w = if v = w then type else t.get w := by
  simp [set, get, Std.TreeMap.getD_insert]

@[simp] theorem get_set_self (t : TypeMap) (v : ValueId) (type : FlowType) :
    (t.set v type).get v = type := by
  simp [get_set]

theorem get_set_of_ne {t : TypeMap} {v w : ValueId} {type : FlowType} (h : w ≠ v) :
    (t.set v type).get w = t.get w := by
  rw [get_set, if_neg (Ne.symm h)]

end TypeMap

/-! ### Steps -/

/-- How types hang together. -/
structure Flow where
  /-- The number of values. -/
  bound : Nat
  /-- What a value should have at least, given what the others have. -/
  candidate : (ValueId → FlowType) → ValueId → FlowType
  /-- The values to look at again when a value has changed. -/
  dependents : ValueId → List ValueId
  /-- An update from the first type by the second that must not be made. -/
  refuse : ValueId → FlowType → FlowType → Option Error

namespace Propagation

/-- A change of the type of a value. -/
structure Move where
  value : ValueId
  old : FlowType
  new : FlowType
deriving DecidableEq, Repr

structure State where
  work : Worklist ValueId := {}
  types : TypeMap := {}
  steps : Nat := 0
  /-- All changes so far, the newest first. -/
  moves : List Move := []

inductive Outcome where
  | settled
  | refused (e : Error)
  | continued (s : State)

/-- Takes one value off the worklist. -/
def step (g : Hierarchy) (f : Flow) (s : State) : Outcome :=
  match s.work.pop? with
  | none => .settled
  | some (v, work) =>
    if v.num < f.bound then
      let old := s.types.get v
      let candidate := f.candidate s.types.get v
      match f.refuse v old candidate with
      | some e => .refused e
      | none =>
        let new := old.join g candidate
        if new = old then .continued { s with work, steps := s.steps + 1 }
        else
          .continued
            { work := work.pushAll (f.dependents v)
              types := s.types.set v new
              steps := s.steps + 1
              moves := ⟨v, old, new⟩ :: s.moves }
    else .refused (.noSuchValue v)

/-! ### Every step goes down -/

def values (f : Flow) : List ValueId := (List.range f.bound).map Index.mk

@[simp] theorem mem_values {f : Flow} {v : ValueId} : v ∈ values f ↔ v.num < f.bound := by
  cases v
  simp [values]

def tierSum (f : Flow) (t : TypeMap) : Nat := sumOver (fun v => (t.get v).tier) (values f)

def heightSum (g : Hierarchy) (f : Flow) (t : TypeMap) : Nat :=
  sumOver (fun v => (t.get v).height g) (values f)

/-- The moves left over `null`, the moves left after it, and the length of the worklist. -/
def State.potential (g : Hierarchy) (f : Flow) (s : State) : Nat × Nat × Nat :=
  (tierSum f s.types, heightSum g f s.types, s.work.size)

/-- The order in which the potential goes down. -/
abbrev Below : Nat × Nat × Nat → Nat × Nat × Nat → Prop :=
  Prod.Lex (· < ·) (Prod.Lex (· < ·) (· < ·))

theorem set_descends {g : Hierarchy} {f : Flow} {t : TypeMap} {v : ValueId} {candidate : FlowType}
    (hv : v.num < f.bound) (h : (t.get v).join g candidate ≠ t.get v) :
    tierSum f (t.set v ((t.get v).join g candidate)) < tierSum f t ∨
      tierSum f (t.set v ((t.get v).join g candidate)) = tierSum f t ∧
        heightSum g f (t.set v ((t.get v).join g candidate)) < heightSum g f t := by
  have hmem : v ∈ values f := mem_values.mpr hv
  have hother : ∀ w, w ≠ v → (t.set v ((t.get v).join g candidate)).get w = t.get w :=
    fun w hw => TypeMap.get_set_of_ne hw
  -- the tier goes down, or it stays and the height goes down; only `v` has changed
  rcases FlowType.join_ascends h with htier | ⟨htier, hheight⟩
  · refine .inl (sumOver_lt hmem (fun w _ => ?_) ?_)
    · by_cases hw : w = v
      · subst hw
        rw [TypeMap.get_set_self]
        exact Nat.le_of_lt htier
      · exact Nat.le_of_eq (congrArg FlowType.tier (hother w hw))
    · rw [TypeMap.get_set_self]
      exact htier
  · refine .inr ⟨?_, sumOver_lt hmem (fun w _ => ?_) ?_⟩
    · refine sumOver_congr fun w _ => ?_
      by_cases hw : w = v
      · subst hw
        rw [TypeMap.get_set_self, htier]
      · rw [hother w hw]
    · by_cases hw : w = v
      · subst hw
        rw [TypeMap.get_set_self]
        exact Nat.le_of_lt hheight
      · exact Nat.le_of_eq (congrArg (FlowType.height g) (hother w hw))
    · rw [TypeMap.get_set_self]
      exact hheight

theorem step_descends {g : Hierarchy} {f : Flow} {s t : State} (h : step g f s = .continued t) :
    Below (t.potential g f) (s.potential g f) := by
  unfold step at h
  split at h
  · simp at h
  · rename_i v work hpop
    split at h
    · rename_i hv
      simp only at h
      split at h
      · simp at h
      · split at h
        · simp only [Outcome.continued.injEq] at h
          subst h
          exact .right _ (.right _ (Worklist.size_pop? hpop))
        · rename_i hne
          simp only [Outcome.continued.injEq] at h
          subst h
          rcases set_descends hv hne with hlt | ⟨heq, hlt⟩
          · exact .left _ _ hlt
          · simp only [State.potential, heq]
            exact .right _ (.left _ _ hlt)
    · simp at h

/-- Steps until the worklist is empty or an update is refused. -/
def run (g : Hierarchy) (f : Flow) (s : State) : State × Option Error :=
  match h : step g f s with
  | .settled => (s, none)
  | .refused e => (s, some e)
  | .continued t =>
    have := step_descends h
    run g f t
termination_by s.potential g f
decreasing_by assumption

end Propagation

end JvmLowering
