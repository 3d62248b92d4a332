import JvmLowering.Worklist
import Mathlib.Data.List.Nodup

/-!
# Worklists are queues

A worklist is pushed to and popped from in any order. What is seen of it are events: whether a push
was new, and what a pop took. A plain queue that is told of the new pushes only takes the same items
at every pop. So no item is lost that was pushed after it was taken last, also while it waits
already, and none is taken more often than it was new.

* `Worklist.Faithful`: what a worklist keeps;
* `Worklist.Call`, `Worklist.run`: sequences of calls, with the events that come of them;
* `Worklist.History`: the events one by one;
* `Worklist.serve`: a plain queue;
* `Worklist.run_refines_queue`: a worklist does what the plain queue does.
-/

namespace JvmLowering.Worklist

variable {α : Type} [Ord α] {w w' rest : Worklist α} {a b : α}

/-! ### What a worklist keeps -/

/-- Nothing is queued twice, and the set of queued items is that of the queue. -/
structure Faithful (w : Worklist α) : Prop where
  nodup : w.toList.Nodup
  mem_queued : ∀ a, a ∈ w.queued ↔ a ∈ w.toList

theorem faithful_empty [Std.TransOrd α] : (empty : Worklist α).Faithful := by
  constructor <;> simp [empty, toList]

theorem push_fst (w : Worklist α) (a : α) : (w.push a).1 = !w.queued.contains a := by
  unfold push
  cases w.queued.contains a <;> rfl

/-- A push is new exactly if the item is not queued. -/
theorem Faithful.push_fst_iff (h : w.Faithful) (a : α) : (w.push a).1 = true ↔ a ∉ w.toList := by
  rw [push_fst, Bool.not_eq_true', ← Bool.not_eq_true, Std.TreeSet.contains_iff_mem, h.mem_queued]

section Lawful

variable [Std.TransOrd α] [Std.LawfulEqOrd α]

theorem Faithful.push (h : w.Faithful) (a : α) :
    (w.push a).2.Faithful ∧ ∀ b, b ∈ (w.push a).2.toList ↔ b ∈ w.toList ∨ b = a := by
  by_cases ha : a ∈ w.queued
  · have hpush : (w.push a).2 = w := by
      unfold Worklist.push
      rw [if_pos (Std.TreeSet.contains_iff_mem.2 ha)]
    rw [hpush]
    refine ⟨h, fun b => ⟨Or.inl, ?_⟩⟩
    rintro (hb | rfl)
    · exact hb
    · exact (h.mem_queued b).1 ha
  · have hpush : (w.push a).2 = { w with back := a :: w.back, queued := w.queued.insert a } := by
      unfold Worklist.push
      rw [if_neg (fun hc => ha (Std.TreeSet.contains_iff_mem.1 hc))]
    have hlist : (w.push a).2.toList = w.toList ++ [a] := by simp [hpush, toList]
    have hmem : ∀ b, b ∈ (w.push a).2.toList ↔ b ∈ w.toList ∨ b = a := by
      intro b
      rw [hlist, List.mem_append, List.mem_singleton]
    refine ⟨⟨?_, ?_⟩, hmem⟩
    · rw [hlist]
      refine List.nodup_append.2 ⟨h.nodup, by simp, ?_⟩
      rintro b hb c hc rfl
      rw [List.mem_singleton.1 hc] at hb
      exact ha ((h.mem_queued a).2 hb)
    · intro b
      rw [hmem, hpush, Std.TreeSet.mem_insert, h.mem_queued, Std.LawfulEqCmp.compare_eq_iff_eq,
        eq_comm, or_comm]

theorem Faithful.pushAll (h : w.Faithful) (items : List α) :
    (w.pushAll items).Faithful ∧ ∀ b, b ∈ (w.pushAll items).toList ↔ b ∈ w.toList ∨ b ∈ items := by
  induction items generalizing w with
  | nil => exact ⟨h, fun b => by simp [Worklist.pushAll]⟩
  | cons a items ih =>
    obtain ⟨hw, hmem⟩ := h.push a
    obtain ⟨hw', hmem'⟩ := ih hw
    refine ⟨hw', fun b => (hmem' b).trans ?_⟩
    rw [hmem, List.mem_cons, or_assoc]

theorem Faithful.pop? (h : w.Faithful) (hp : w.pop? = some (a, rest)) : rest.Faithful := by
  have hlist := toList_pop? hp
  have hqueued : rest.queued = w.queued.erase a := by
    unfold Worklist.pop? at hp
    split at hp
    · simp only [Option.some.injEq, Prod.mk.injEq] at hp
      rw [← hp.1, ← hp.2]
    · split at hp
      · simp only [Option.some.injEq, Prod.mk.injEq] at hp
        rw [← hp.1, ← hp.2]
      · simp at hp
  have hnodup := h.nodup
  rw [hlist, List.nodup_cons] at hnodup
  refine ⟨hnodup.2, fun b => ?_⟩
  rw [hqueued, Std.TreeSet.mem_erase, h.mem_queued, hlist, List.mem_cons, ne_eq,
    Std.LawfulEqCmp.compare_eq_iff_eq]
  constructor
  · rintro ⟨hne, hb⟩
    exact hb.resolve_left fun hba => hne hba.symm
  · intro hb
    refine ⟨?_, Or.inr hb⟩
    rintro rfl
    exact hnodup.1 hb

end Lawful

/-! ### Calls and events -/

/-- A call of a worklist. -/
inductive Call (α : Type) where
  | push (a : α)
  | pop
  | extend (items : List α)

/-- What comes of a call: whether a push was new, and what a pop took. -/
inductive Event (α : Type) where
  | pushed (a : α) (new : Bool)
  | popped (taken : Option α)
deriving DecidableEq

/-- The events of pushing the items of a list in order. -/
def pushEvents (w : Worklist α) : List α → List (Event α)
  | [] => []
  | a :: items => .pushed a (w.push a).1 :: (w.push a).2.pushEvents items

/-- The events of a call, and the worklist after it. -/
def Call.apply (w : Worklist α) : Call α → List (Event α) × Worklist α
  | .push a => ([.pushed a (w.push a).1], (w.push a).2)
  | .pop =>
    match w.pop? with
    | some (a, rest) => ([.popped (some a)], rest)
    | none => ([.popped none], w)
  | .extend items => (w.pushEvents items, w.pushAll items)

/-- The events of a sequence of calls, and the worklist after it. -/
def run (w : Worklist α) : List (Call α) → List (Event α) × Worklist α
  | [] => ([], w)
  | c :: calls => ((c.apply w).1 ++ (run (c.apply w).2 calls).1, (run (c.apply w).2 calls).2)

/-! ### A plain queue -/

section Queue

variable {α : Type}

/-- What a plain queue takes at each pop, if each new push and nothing else is put into it, and what
is in it in the end. What the worklist took is not looked at. -/
def serve (q : List α) : List (Event α) → List (Option α) × List α
  | [] => ([], q)
  | .pushed a true :: events => serve (q ++ [a]) events
  | .pushed _ false :: events => serve q events
  | .popped _ :: events => (q.head? :: (serve q.tail events).1, (serve q.tail events).2)

/-- What the pops gave, one after the other. -/
def answers (events : List (Event α)) : List (Option α) :=
  events.filterMap fun
    | .popped taken => some taken
    | .pushed _ _ => none

/-- The items of all pushes that were new. -/
def accepted (events : List (Event α)) : List α :=
  events.filterMap fun
    | .pushed a true => some a
    | _ => none

/-- The items that were taken. -/
def taken (events : List (Event α)) : List α :=
  events.filterMap fun
    | .popped taken => taken
    | .pushed _ _ => none

theorem mem_taken {events : List (Event α)} {a : α} :
    a ∈ taken events ↔ .popped (some a) ∈ events := by
  simp only [taken, List.mem_filterMap]
  constructor
  · rintro ⟨_ | taken, he, ha⟩
    · simp at ha
    · simp only at ha
      rwa [ha] at he
  · exact fun he => ⟨_, he, rfl⟩

end Queue

/-! ### Events one by one -/

/-- A worklist after some events. -/
inductive History : Worklist α → List (Event α) → Worklist α → Prop
  | nil {w : Worklist α} : History w [] w
  | push {w w' : Worklist α} {events : List (Event α)} (a : α)
      (later : History (w.push a).2 events w') :
      History w (.pushed a (w.push a).1 :: events) w'
  | pop {w rest w' : Worklist α} {a : α} {events : List (Event α)} (first : w.pop? = some (a, rest))
      (later : History rest events w') : History w (.popped (some a) :: events) w'
  | popEmpty {w w' : Worklist α} {events : List (Event α)} (nothing : w.pop? = none)
      (later : History w events w') :
      History w (.popped none :: events) w'

namespace History

variable {events before after : List (Event α)}

theorem append {w'' : Worklist α} (h : History w before w') (h' : History w' after w'') :
    History w (before ++ after) w'' := by
  induction h with
  | nil => exact h'
  | push a _ ih => exact .push a (ih h')
  | pop first _ ih => exact .pop first (ih h')
  | popEmpty nothing _ ih => exact .popEmpty nothing (ih h')

theorem split (h : History w (before ++ after) w') :
    ∃ between, History w before between ∧ History between after w' := by
  induction before generalizing w with
  | nil => exact ⟨w, .nil, h⟩
  | cons e before ih =>
    cases h with
    | push a later =>
      obtain ⟨between, hbefore, hafter⟩ := ih later
      exact ⟨between, .push a hbefore, hafter⟩
    | pop first later =>
      obtain ⟨between, hbefore, hafter⟩ := ih later
      exact ⟨between, .pop first hbefore, hafter⟩
    | popEmpty nothing later =>
      obtain ⟨between, hbefore, hafter⟩ := ih later
      exact ⟨between, .popEmpty nothing hbefore, hafter⟩

theorem pushAll (w : Worklist α) (items : List α) :
    History w (w.pushEvents items) (w.pushAll items) := by
  induction items generalizing w with
  | nil => exact .nil
  | cons a items ih => exact .push a (ih (w.push a).2)

theorem apply (w : Worklist α) (c : Call α) : History w (c.apply w).1 (c.apply w).2 := by
  cases c with
  | push a => exact .push a .nil
  | pop =>
    simp only [Call.apply]
    split
    · exact .pop ‹_› .nil
    · exact .popEmpty ‹_› .nil
  | extend items => exact pushAll w items

theorem run (w : Worklist α) (calls : List (Call α)) :
    History w (w.run calls).1 (w.run calls).2 := by
  induction calls generalizing w with
  | nil => exact .nil
  | cons c calls ih => exact (apply w c).append (ih _)

/-- The plain queue takes what the worklist takes, and is left with what the worklist is left
with. -/
theorem serve_eq (h : History w events w') :
    serve w.toList events = (answers events, w'.toList) := by
  induction h with
  | nil => rfl
  | @push w w' events a _ ih =>
    rw [toList_push] at ih
    rw [push_fst]
    cases hc : w.queued.contains a with
    | true =>
      rw [hc, if_pos rfl] at ih
      exact ih
    | false =>
      rw [hc, if_neg Bool.false_ne_true] at ih
      exact ih
  | pop first _ ih =>
    rw [toList_pop? first, serve, List.tail_cons, ih]
    rfl
  | popEmpty nothing _ ih =>
    have hnil := pop?_eq_none_iff.1 nothing
    rw [hnil] at ih ⊢
    rw [serve, List.tail_nil, ih]
    rfl

/-- What was there and what was new has been taken, in this order, or is there still. -/
theorem toList_append_accepted (h : History w events w') :
    w.toList ++ accepted events = taken events ++ w'.toList := by
  induction h with
  | nil => simp [accepted, taken]
  | @push w w' events a _ ih =>
    rw [toList_push] at ih
    rw [push_fst]
    cases hc : w.queued.contains a with
    | true =>
      rw [hc, if_pos rfl] at ih
      exact ih
    | false =>
      rw [hc, if_neg Bool.false_ne_true, List.append_assoc] at ih
      exact ih
  | pop first _ ih =>
    rw [toList_pop? first, List.cons_append]
    exact congrArg (List.cons _) ih
  | popEmpty nothing _ ih => exact ih

/-- What is queued and is not taken stays. -/
theorem mem_of_not_taken (h : History w events w') (ha : a ∈ w.toList)
    (htaken : .popped (some a) ∉ events) : a ∈ w'.toList := by
  have hmem : a ∈ taken events ++ w'.toList := h.toList_append_accepted ▸ List.mem_append_left _ ha
  exact (List.mem_append.1 hmem).resolve_left fun h' => htaken (mem_taken.1 h')

variable [Std.TransOrd α] [Std.LawfulEqOrd α]

theorem faithful (h : History w events w') (hw : w.Faithful) : w'.Faithful := by
  induction h with
  | nil => exact hw
  | push a _ ih => exact ih (hw.push a).1
  | pop first _ ih => exact ih (hw.pop? first)
  | popEmpty _ _ ih => exact ih hw

end History

/-! ### All calls -/

/-- If nothing is pushed any more, the items are taken one after the other. -/
theorem run_pops {items : List α} (h : w.toList = items) :
    (w.run (List.replicate items.length .pop)).1 = items.map fun a => .popped (some a) := by
  induction items generalizing w with
  | nil => rfl
  | cons a items ih =>
    cases hp : w.pop? with
    | none => simp [pop?_eq_none_iff.1 hp] at h
    | some p =>
      obtain ⟨b, rest⟩ := p
      rw [toList_pop? hp] at h
      obtain ⟨rfl, hrest⟩ := List.cons.inj h
      rw [List.length_cons, List.replicate_succ, run, Call.apply, hp, List.map_cons, ← ih hrest]
      rfl

/-- **A worklist is a queue of what is new.** After any calls the queue holds nothing twice, the set
of queued items is that of the queue, and a push is new exactly if its item is not queued. All pops
took what a plain queue gives into which the new pushes were put. An item that was not taken since
it was pushed is queued still, and is taken if there are enough pops. No item was taken more often
than it was new. -/
theorem run_refines_queue [Std.TransOrd α] [Std.LawfulEqOrd α] [DecidableEq α]
    (calls : List (Call α)) :
    let events := (run empty calls).1
    let w := (run empty calls).2
    w.toList.Nodup ∧ (∀ a, a ∈ w.queued ↔ a ∈ w.toList) ∧
      (∀ a, (w.push a).1 = true ↔ a ∉ w.toList) ∧
      serve [] events = (answers events, w.toList) ∧
      (∀ before a new after, events = before ++ .pushed a new :: after →
        (new = true ↔ a ∉ (serve [] before).2) ∧ (.popped (some a) ∉ after → a ∈ w.toList)) ∧
      (w.run (List.replicate w.size .pop)).1 = w.toList.map (fun a => .popped (some a)) ∧
      ∀ a, (taken events).count a ≤ (accepted events).count a := by
  intro events w
  have hrun : History empty events w := .run empty calls
  have hw := hrun.faithful faithful_empty
  have hempty : (empty : Worklist α).toList = [] := rfl
  refine ⟨hw.nodup, hw.mem_queued, hw.push_fst_iff, hempty ▸ hrun.serve_eq,
    fun before a new after hsplit => ?_, ?_, fun a => ?_⟩
  -- the calls before the push lead to a worklist, on which the push is made
  · rw [hsplit] at hrun
    obtain ⟨between, hbefore, hafter⟩ := hrun.split
    have hbetween := hbefore.faithful faithful_empty
    have hserve : serve [] before = _ := hempty ▸ hbefore.serve_eq
    cases hafter with
    | push _ later =>
      rw [hserve]
      refine ⟨hbetween.push_fst_iff a, fun htaken => later.mem_of_not_taken ?_ htaken⟩
      exact ((hbetween.push a).2 a).2 (Or.inr rfl)
  · rw [← length_toList]
    exact run_pops rfl
  -- what was accepted has been taken, or it is still waiting
  · have haccepted : accepted events = taken events ++ w.toList := by
      rw [← hrun.toList_append_accepted, hempty, List.nil_append]
    rw [haccepted, List.count_append]
    exact Nat.le_add_right _ _

/-- An item that is pushed again while it waits, and one that is pushed again after it was taken. -/
def repushes : List (Call Nat) :=
  [.push 1, .push 2, .push 1, .pop, .push 1, .extend [2, 3], .pop, .pop, .extend [3, 2]]

/-- The item that waits is not queued twice, and the one that was taken is taken again. -/
theorem run_refines_queue_repushes :
    (run empty repushes).2.toList = [3, 2] ∧ accepted (run empty repushes).1 = [1, 2, 1, 3, 2] ∧
      serve [] (run empty repushes).1 = ([some 1, some 2, some 1], [3, 2]) ∧
      ((run empty repushes).2.run [.pop, .pop]).1 = [.popped (some 3), .popped (some 2)] := by
  have hlist : (run empty repushes).2.toList = [3, 2] := by decide +kernel
  have hanswers : answers (run empty repushes).1 = [some 1, some 2, some 1] := by decide +kernel
  have haccepted : accepted (run empty repushes).1 = [1, 2, 1, 3, 2] := by decide +kernel
  obtain ⟨-, -, -, hserve, -, hpops, -⟩ := run_refines_queue repushes
  rw [hanswers, hlist] at hserve
  rw [← length_toList, hlist] at hpops
  exact ⟨hlist, haccepted, hserve, hpops⟩

end JvmLowering.Worklist
