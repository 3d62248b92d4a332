import JvmLowering.JvmType.Basic
import JvmLowering.Measure
import Mathlib.Data.List.Basic

/-!
# Entries one after the other

Where an entry begins is kept twice: with the entry, and in the extent for the next one. Adding an
entry moves the extent on by its width, taking one away puts back the offset that was kept. The two
stay in step whatever is added and taken away, so the entries alone say everything: they are where
they would be if they had been collected from a list.

* `Slots.Consecutive`: each entry begins where the one before it ends;
* `Slots.Consecutive.pushAll`: entries that are added keep it so;
* `Slots.push?_ofList`: an entry is added if the offset after it can be counted;
* `Slots.Call`, `Slots.survivors`: sequences of calls, and the entries that are left after them;
* `Slots.applyAll?_eq_some`: what is left is what would have been collected;
* `Slots.applyAll?_collects`: hence all that is reported about it.
-/

namespace JvmLowering.Slots

variable {α : Type} [HasWidth α] {s : Slots α} {n : Nat} {x : α}

/-- How many slots some entries take together. -/
def totalWidth (entries : List (Nat × α)) : Nat := sumOver (fun entry => width entry.2) entries

@[simp] theorem totalWidth_nil : totalWidth ([] : List (Nat × α)) = 0 := rfl

@[simp] theorem totalWidth_append (entries entries' : List (Nat × α)) :
    totalWidth (entries ++ entries') = totalWidth entries + totalWidth entries' :=
  sumOver_append _ entries entries'

@[simp] theorem totalWidth_cons (n : Nat) (x : α) (entries : List (Nat × α)) :
    totalWidth ((n, x) :: entries) = width x + totalWidth entries := rfl

/-- The offset of each entry is the width of those before it, and the extent that of all. -/
structure Consecutive (s : Slots α) : Prop where
  offset : ∀ before n x after, s.toList = before ++ (n, x) :: after → n = totalWidth before
  extent : s.extent = totalWidth s.toList

theorem consecutive_empty : Consecutive ({} : Slots α) := by
  refine ⟨fun before n x after h => ?_, rfl⟩
  simp [toList] at h

theorem Consecutive.push (h : s.Consecutive) (a : α) : (s.push a).2.Consecutive := by
  refine ⟨fun before n x after hsplit => ?_, by simp [h.extent]⟩
  rw [toList_push] at hsplit
  rcases List.eq_nil_or_concat after with rfl | ⟨front, last, rfl⟩
  · obtain ⟨rfl, hlast⟩ := List.append_inj' hsplit rfl
    obtain ⟨rfl, rfl⟩ := Prod.mk.inj (List.singleton_inj.1 hlast)
    exact h.extent
  · rw [List.concat_eq_append, ← List.cons_append, ← List.append_assoc] at hsplit
    exact h.offset before n x front (List.append_inj' hsplit rfl).1

theorem Consecutive.pushAll (h : s.Consecutive) (entries : List α) :
    (s.pushAll entries).Consecutive :=
  List.foldlRecOn _ _ h fun _ h a _ => h.push a

theorem Consecutive.end_le (h : s.Consecutive) (hx : (n, x) ∈ s.toList) :
    n + width x ≤ s.extent := by
  obtain ⟨before, after, hsplit⟩ := List.append_of_mem hx
  rw [h.offset before n x after hsplit, h.extent, hsplit, totalWidth_append, totalWidth_cons]
  omega

/-- Entries of one slot each fill the slots from the end on. -/
theorem mem_toList_pushAll_replicate {m : Nat} {y : α} (hx : width x = 1) (s : Slots α) :
    (n, y) ∈ (s.pushAll (List.replicate m x)).toList ↔ (n, y) ∈ s.toList ∨ y = x ∧ s.extent ≤ n ∧
      n < s.extent + m := by
  induction m generalizing s with
  | zero =>
    show (n, y) ∈ s.toList ↔ _
    refine ⟨Or.inl, fun h => h.resolve_right ?_⟩
    rintro ⟨-, hle, hlt⟩
    omega
  | succ m ih =>
    show (n, y) ∈ ((s.push x).2.pushAll (List.replicate m x)).toList ↔ _
    rw [ih, toList_push, List.mem_append, List.mem_singleton, Prod.mk.injEq,
      extent_push, hx, or_assoc]
    refine or_congr_right ⟨?_, ?_⟩
    · rintro (⟨rfl, rfl⟩ | ⟨rfl, hle, hlt⟩)
      · exact ⟨rfl, Nat.le_refl _, by omega⟩
      · exact ⟨rfl, by omega, by omega⟩
    · rintro ⟨rfl, hle, hlt⟩
      by_cases hn : n = s.extent
      · exact Or.inl ⟨hn, rfl⟩
      · exact Or.inr ⟨rfl, by omega, by omega⟩

theorem extent_pushAll_replicate {m : Nat} (hx : width x = 1) (s : Slots α) :
    (s.pushAll (List.replicate m x)).extent = s.extent + m := by
  induction m generalizing s with
  | zero => rfl
  | succ m ih =>
    show ((s.push x).2.pushAll (List.replicate m x)).extent = _
    rw [ih, extent_push, hx]
    omega

/-! ### Collected entries -/

theorem totalWidth_eq (entries : List (Nat × α)) :
    totalWidth entries = sumOver width (entries.map Prod.snd) := by
  induction entries with
  | nil => rfl
  | cons entry entries ih => exact congrArg (width entry.2 + ·) ih

section OfList

variable (entries : List α)

theorem map_snd_toList_pushAll (s : Slots α) :
    (s.pushAll entries).toList.map Prod.snd = s.toList.map Prod.snd ++ entries := by
  induction entries generalizing s with
  | nil => exact (List.append_nil _).symm
  | cons a entries ih =>
    refine (ih (s.push a).2).trans ?_
    rw [toList_push, List.map_append, List.append_assoc]
    rfl

theorem map_snd_toList_ofList : (ofList entries).toList.map Prod.snd = entries :=
  map_snd_toList_pushAll entries empty

theorem length_newestFirst_ofList : (ofList entries).newestFirst.length = entries.length := by
  have hlength := congrArg List.length (map_snd_toList_ofList entries)
  rwa [List.length_map, toList, List.length_reverse] at hlength

theorem consecutive_ofList : (ofList entries).Consecutive := consecutive_empty.pushAll entries

theorem extent_ofList : (ofList entries).extent = sumOver width entries := by
  rw [(consecutive_ofList entries).extent, totalWidth_eq, map_snd_toList_ofList]

theorem ofList_append_singleton (a : α) :
    ofList (entries ++ [a]) = ((ofList entries).push a).2 := by
  rw [ofList, pushAll, List.foldl_append]
  rfl

/-- Each entry begins at the width of those before it. -/
theorem getElem?_toList_ofList (i : Nat) :
    (ofList entries).toList[i]? = entries[i]?.map fun a => (sumOver width (entries.take i), a) := by
  have hentries := map_snd_toList_ofList entries
  have hoffset := (consecutive_ofList entries).offset
  generalize (ofList entries).toList = placed at hentries hoffset
  subst hentries
  rw [List.getElem?_map, Option.map_map]
  cases hi : placed[i]? with
  | none => rfl
  | some entry =>
    obtain ⟨n, x⟩ := entry
    obtain ⟨hlt, hget⟩ := List.getElem?_eq_some_iff.1 hi
    have hsplit : placed = placed.take i ++ (n, x) :: placed.drop (i + 1) := by
      rw [← hget, ← List.drop_eq_getElem_cons hlt, List.take_append_drop]
    rw [hoffset _ n x _ hsplit, totalWidth_eq, List.map_take]
    rfl

theorem getElem?_placements_ofList (i : Nat) :
    (ofList entries).placements[i]? = entries[i]?.map fun a =>
      ⟨sumOver width (entries.take i), i, a⟩ := by
  rw [placements, List.getElem?_map, List.getElem?_zipIdx, getElem?_toList_ofList]
  cases entries[i]? with
  | none => rfl
  | some a => simp

theorem last?_ofList :
    (ofList entries).last? = entries.getLast?.map fun a => (sumOver width entries.dropLast, a) := by
  rcases List.eq_nil_or_concat entries with rfl | ⟨front, a, rfl⟩
  · rfl
  · rw [List.concat_eq_append, ofList_append_singleton, List.getLast?_concat, List.dropLast_concat,
      ← extent_ofList]
    rfl

theorem pop?_ofList :
    (ofList entries).pop? =
      entries.getLast?.map fun a => (⟨sumOver width entries.dropLast, entries.length - 1, a⟩,
        ofList entries.dropLast) := by
  rcases List.eq_nil_or_concat entries with rfl | ⟨front, a, rfl⟩
  · rfl
  · rw [List.concat_eq_append, ofList_append_singleton, List.getLast?_concat, List.dropLast_concat,
      List.length_append, ← extent_ofList]
    simp [push, pop?, length_newestFirst_ofList]

theorem pop_ofList : (ofList entries).pop = ofList entries.dropLast := by
  rw [pop, pop?_ofList]
  rcases List.eq_nil_or_concat entries with rfl | ⟨front, a, rfl⟩
  · rfl
  · rw [List.concat_eq_append, List.getLast?_concat]
    rfl

/-- Collected entries are equal exactly if they were collected from equal lists. -/
theorem ofList_beq_iff [BEq α] [LawfulBEq α] {entries entries' : List α} :
    (ofList entries == ofList entries') = true ↔ entries = entries' := by
  refine ⟨fun h => ?_, fun h => ?_⟩
  · have hnewest : (ofList entries).newestFirst = (ofList entries').newestFirst := eq_of_beq h
    rw [← map_snd_toList_ofList entries, ← map_snd_toList_ofList entries', toList, toList, hnewest]
  · rw [h]
    exact beq_self_eq_true (ofList entries').newestFirst

end OfList

/-! ### Offsets that can be counted -/

section Limit

variable {limit : Nat}

theorem sumOver_dropLast_le (entries : List α) :
    sumOver width entries.dropLast ≤ sumOver width entries := by
  rcases List.eq_nil_or_concat entries with rfl | ⟨front, a, rfl⟩
  · exact Nat.le_refl _
  · rw [List.concat_eq_append, List.dropLast_concat, sumOver_append]
    exact Nat.le_add_right ..

theorem push?_ofList (limit : Nat) (entries : List α) (a : α) :
    (ofList entries).push? limit a =
      if sumOver width entries + width a ≤ limit then
        some (sumOver width entries, ofList (entries ++ [a])) else none := by
  rw [push?, extent_ofList, ofList_append_singleton, ← extent_ofList]
  rfl

theorem foldlM_push?_ofList {entries : List α} (h : sumOver width entries ≤ limit)
    (added : List α) :
    added.foldlM (fun t a => (t.push? limit a).map Prod.snd) (ofList entries) =
      if sumOver width (entries ++ added) ≤ limit then some (ofList (entries ++ added))
      else none := by
  induction added generalizing entries with
  | nil => simp [h]
  | cons a added ih =>
    have hsplit : entries ++ a :: added = entries ++ [a] ++ added := by simp
    have hsum : sumOver width (entries ++ [a]) = sumOver width entries + width a :=
      sumOver_append _ entries [a]
    rw [List.foldlM_cons, push?_ofList, hsplit]
    by_cases ha : sumOver width entries + width a ≤ limit
    · rw [if_pos ha]
      exact ih (hsum ▸ ha)
    · -- what comes later cannot make the sum small again
      rw [if_neg ha, if_neg]
      · rfl
      · rw [sumOver_append, hsum]
        omega

theorem ofList?_eq (limit : Nat) (entries : List α) :
    ofList? limit entries =
      if sumOver width entries ≤ limit then some (ofList entries) else none := by
  have hnone : sumOver width ([] : List α) ≤ limit := Nat.zero_le limit
  exact foldlM_push?_ofList hnone entries

end Limit

/-! ### Sequences of calls -/

/-- A call that changes entries. -/
inductive Call (α : Type) where
  | push (a : α)
  | pop
  | collect (entries : List α)

/-- The entries after a call, if all offsets can be counted. -/
def Call.run? (limit : Nat) (s : Slots α) : Call α → Option (Slots α)
  | push a => (s.push? limit a).map Prod.snd
  | pop => some s.pop
  | collect entries => ofList? limit entries

def applyAll? (limit : Nat) (s : Slots α) (calls : List (Call α)) : Option (Slots α) :=
  calls.foldlM (Call.run? limit) s

/-- The entries that are left after a call. -/
def Call.survive {α : Type} (entries : List α) : Call α → List α
  | push a => entries ++ [a]
  | pop => entries.dropLast
  | collect entries' => entries'

/-- The entries that are left after some calls on none. -/
def survivors {α : Type} (calls : List (Call α)) : List α := calls.foldl Call.survive []

variable {limit : Nat} {calls : List (Call α)}

theorem run?_ofList {entries : List α} (h : sumOver width entries ≤ limit) (c : Call α) :
    c.run? limit (ofList entries) =
      if sumOver width (c.survive entries) ≤ limit then some (ofList (c.survive entries))
      else none := by
  cases c with
  | push a =>
    have hsum : sumOver width (Call.survive entries (.push a)) = sumOver width entries + width a :=
      sumOver_append _ entries [a]
    rw [Call.run?, push?_ofList, hsum]
    split <;> rfl
  | pop =>
    rw [Call.run?, pop_ofList, if_pos]
    · rfl
    · exact Nat.le_trans (sumOver_dropLast_le entries) h
  | collect entries' => exact ofList?_eq limit entries'

/-- Calls give what would have been collected, as long as that could be counted all the time. -/
theorem applyAll?_ofList_eq_some {entries : List α} (h : sumOver width entries ≤ limit) :
    applyAll? limit (ofList entries) calls = some s ↔
      s = ofList (calls.foldl Call.survive entries) ∧
        ∀ before, before <+: calls → sumOver width (before.foldl Call.survive entries) ≤ limit := by
  induction calls generalizing entries with
  | nil =>
    simp only [applyAll?, List.foldlM_nil, List.foldl_nil, List.prefix_nil, forall_eq, h, and_true]
    exact ⟨fun h => (Option.some.inj h).symm, fun h => congrArg some h.symm⟩
  | cons c calls ih =>
    rw [applyAll?, List.foldlM_cons, run?_ofList h]
    by_cases hc : sumOver width (c.survive entries) ≤ limit
    · rw [if_pos hc]
      refine (ih hc).trans
        (and_congr_right fun _ => ⟨fun hall before hbefore => ?_, fun hall => ?_⟩)
      · rcases List.prefix_cons_iff.1 hbefore with rfl | ⟨before, rfl, hbefore⟩
        · exact h
        · exact hall before (List.cons_prefix_cons.1 hbefore).2
      · exact fun before hbefore => hall (c :: before) (List.cons_prefix_cons.2 ⟨rfl, hbefore⟩)
    · rw [if_neg hc]
      refine iff_of_false (Option.some_ne_none s).symm fun hall => hc ?_
      exact hall.2 [c] (List.cons_prefix_cons.2 ⟨rfl, List.nil_prefix⟩)

/-- Not only the entries that are left are those that would have been collected, but also where
they are and what comes next. -/
theorem applyAll?_eq_some :
    applyAll? limit empty calls = some s ↔
      s = ofList (survivors calls) ∧
        ∀ before, before <+: calls → sumOver width (survivors before) ≤ limit := by
  have hnone : sumOver width ([] : List α) ≤ limit := Nat.zero_le limit
  exact applyAll?_ofList_eq_some hnone

/-- Calls in which everything that is added is taken away again. -/
inductive Balanced {α : Type} : List (Call α) → Prop
  | nil : Balanced []
  | pair {inner later : List (Call α)} (a : α) (within : Balanced inner) (after : Balanced later) :
      Balanced (.push a :: inner ++ .pop :: later)

theorem Balanced.survive_eq {α : Type} {calls : List (Call α)} (h : Balanced calls)
    (entries : List α) :
    calls.foldl Call.survive entries = entries := by
  induction h generalizing entries with
  | nil => rfl
  | @pair inner later a _ _ ih ih' =>
    rw [List.cons_append, List.foldl_cons, List.foldl_append, ih, List.foldl_cons]
    simp only [Call.survive, List.dropLast_concat]
    exact ih' entries

/-- **Entries are where they would be if they had been collected.** Calls give a result exactly
if the width of what is left could be counted after each of them. They then equal what is
collected from the entries that are left. The offsets that adding, listing, looking at and taking
away report are the widths of all entries before, and the extent is the width of all. Taking an
entry away leaves what was there before it was added. Two sequences of calls leave equal entries
exactly if what is left is the same list, and then the extents are equal although they are not
compared. -/
theorem applyAll?_collects [BEq α] [LawfulBEq α] (limit : Nat) (calls : List (Call α)) :
    ((∃ s, applyAll? limit empty calls = some s) ↔
      ∀ before, before <+: calls → sumOver width (survivors before) ≤ limit) ∧
    ∀ s, applyAll? limit empty calls = some s →
      let left := survivors calls
      (∃ t, ofList? limit left = some t ∧ (s == t) = true) ∧
      s.extent = sumOver width left ∧
      (∀ a, s.push? limit a =
        if sumOver width left + width a ≤ limit then
          some (sumOver width left, ofList (left ++ [a])) else none) ∧
      (∀ i, s.placements[i]? =
        left[i]?.map fun a => Placed.mk (sumOver width (left.take i)) i a) ∧
      s.last? = left.getLast?.map (fun a => (sumOver width left.dropLast, a)) ∧
      s.pop?.map Prod.fst =
        left.getLast?.map (fun a => Placed.mk (sumOver width left.dropLast) (left.length - 1) a) ∧
      (∀ a inner t, Balanced inner → applyAll? limit s (.push a :: inner) = some t →
        t.pop? = some (⟨sumOver width left, left.length, a⟩, s)) ∧
      (∀ calls' s', applyAll? limit empty calls' = some s' →
        ((s == s') = true ↔ left = survivors calls') ∧
        ((s == s') = true → s.extent = s'.extent)) ∧
      ∀ n, (s == { s with extent := n }) = true := by
  refine ⟨?_, fun s hs => ?_⟩
  · simp only [applyAll?_eq_some, exists_eq_left]
  obtain ⟨rfl, hfits⟩ := applyAll?_eq_some.1 hs
  intro left
  have hleft : sumOver width left ≤ limit := hfits calls List.prefix_rfl
  refine ⟨⟨ofList left, ?_, ofList_beq_iff.2 rfl⟩, extent_ofList left, push?_ofList limit left,
    getElem?_placements_ofList left, last?_ofList left, ?_, fun a inner t hinner ht => ?_,
    fun calls' s' hs' => ?_, fun n => beq_self_eq_true (ofList left).newestFirst⟩
  · rw [ofList?_eq, if_pos hleft]
  · rw [pop?_ofList, Option.map_map]
    rfl
  · -- what is put onto the entry is taken away again before it is
    obtain ⟨rfl, -⟩ := (applyAll?_ofList_eq_some hleft).1 ht
    rw [List.foldl_cons, hinner.survive_eq, Call.survive, ofList_append_singleton, ← extent_ofList,
      ← length_newestFirst_ofList left]
    rfl
  · obtain ⟨rfl, -⟩ := applyAll?_eq_some.1 hs'
    refine ⟨ofList_beq_iff, fun h => ?_⟩
    rw [ofList_beq_iff.1 h]

/-- Wide and narrow entries, some of which are taken away again, the first of them before any is
there. -/
def interleaved : List (Call BaseType) :=
  [.pop, .push .long, .push .int, .pop, .push .double, .push .float, .push .byte, .pop]

/-- Two wide entries and a narrow one are left, as if they had been collected. A wide entry that
is added comes after them, and is taken away again with what was put onto it. If offsets end at
five, the last entry that is added does not fit, although it is taken away again. -/
theorem applyAll?_collects_interleaved :
    (∃ s, applyAll? (UInt64.size - 1) empty interleaved = some s ∧ s.extent = 5 ∧
      s.last? = some (4, .float) ∧ s.placements[1]? = some ⟨2, 1, .double⟩ ∧
      (s == ofList [.long, .double, .float]) = true ∧
      (∃ t, applyAll? (UInt64.size - 1) s [.push .long, .push .int, .pop] = some t ∧
        t.pop? = some (⟨5, 3, .long⟩, s))) ∧
    ¬ ∃ s, applyAll? 5 empty interleaved = some s := by
  have hrun : applyAll? (UInt64.size - 1) empty interleaved =
      some (ofList [.long, .double, .float]) := by decide +kernel
  obtain ⟨-, hresult⟩ := applyAll?_collects (UInt64.size - 1) interleaved
  obtain ⟨-, hextent, -, hplaced, hlast, -, hpop, hequal, -⟩ := hresult _ hrun
  refine ⟨⟨_, hrun, hextent, hlast, hplaced 1, (hequal interleaved _ hrun).1.2 rfl, ?_⟩, ?_⟩
  · have ht : applyAll? (UInt64.size - 1) (ofList [.long, .double, .float])
        [.push .long, .push .int, .pop] =
        some (ofList [.long, .double, .float, BaseType.long]) := by decide +kernel
    exact ⟨_, ht, hpop .long _ _ (Balanced.pair BaseType.int .nil .nil) ht⟩
  · rw [(applyAll?_collects 5 interleaved).1]
    intro hfits
    have hwide := hfits (interleaved.take 7) (List.take_prefix 7 interleaved)
    exact absurd hwide (by decide +kernel)

end JvmLowering.Slots
