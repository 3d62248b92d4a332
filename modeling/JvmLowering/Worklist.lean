import Std.Data.TreeSet

/-!
# Worklists

A first-in first-out queue that ignores items which are already queued. The queue is kept as two
lists, the items to be taken next and the latest ones in reverse, beside the set of all queued
items.
-/

namespace JvmLowering

structure Worklist (α : Type) [Ord α] where
  front : List α := []
  back : List α := []
  queued : Std.TreeSet α := ∅

namespace Worklist

variable {α : Type} [Ord α]

def empty : Worklist α := {}

/-- The queued items, the one to be taken next first. -/
def toList (w : Worklist α) : List α := w.front ++ w.back.reverse

def size (w : Worklist α) : Nat := w.front.length + w.back.length

def isEmpty (w : Worklist α) : Bool := w.front.isEmpty && w.back.isEmpty

/-- Queues an item and says whether it was new. -/
def push (w : Worklist α) (a : α) : Bool × Worklist α :=
  if w.queued.contains a then (false, w)
  else (true, { w with back := a :: w.back, queued := w.queued.insert a })

/-- Takes the item that has waited longest. -/
def pop? (w : Worklist α) : Option (α × Worklist α) :=
  match w.front with
  | a :: front => some (a, { w with front, queued := w.queued.erase a })
  | [] =>
    match w.back.reverse with
    | a :: front => some (a, { front, back := [], queued := w.queued.erase a })
    | [] => none

/-- Queues the items of a list in order. -/
def pushAll (w : Worklist α) (items : List α) : Worklist α :=
  items.foldl (fun w a => (w.push a).2) w

@[simp] theorem length_toList (w : Worklist α) : w.toList.length = w.size := by
  simp [toList, size]

theorem toList_push (w : Worklist α) (a : α) :
    (w.push a).2.toList = if w.queued.contains a then w.toList else w.toList ++ [a] := by
  unfold push
  split <;> simp [toList]

theorem pop?_eq_none_iff {w : Worklist α} : w.pop? = none ↔ w.toList = [] := by
  obtain ⟨front, back, queued⟩ := w
  cases front with
  | cons a front => simp [pop?, toList]
  | nil =>
    cases h : back.reverse with
    | nil => simp [pop?, toList, h]
    | cons a rest => simp [pop?, toList, h]

theorem toList_pop? {w rest : Worklist α} {a : α} (h : w.pop? = some (a, rest)) :
    w.toList = a :: rest.toList := by
  obtain ⟨front, back, queued⟩ := w
  cases front with
  | cons b front =>
    simp only [pop?, Option.some.injEq, Prod.mk.injEq] at h
    obtain ⟨rfl, rfl⟩ := h
    rfl
  | nil =>
    cases hb : back.reverse with
    | nil => simp [pop?, hb] at h
    | cons b tail =>
      simp only [pop?, hb, Option.some.injEq, Prod.mk.injEq] at h
      obtain ⟨rfl, rfl⟩ := h
      simp [toList, hb]

/-- Taking an item shortens the queue. -/
theorem size_pop? {w rest : Worklist α} {a : α} (h : w.pop? = some (a, rest)) :
    rest.size < w.size := by
  rw [← length_toList, ← length_toList, toList_pop? h]
  exact Nat.lt_succ_self _

end Worklist

end JvmLowering
