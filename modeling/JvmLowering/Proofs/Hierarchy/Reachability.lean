import JvmLowering.Proofs.Hierarchy.Assignability

/-!
# Subclasses and reachability

The search behind the subclass test ends, also where interfaces form cycles, and it visits each
class that is reached once. Interfaces are not searched for a class that is none. In a rooted
hierarchy nothing is missed by that: what is reached over an interface and is no interface itself is
`java/lang/Object`, and that is also reached over superclasses.

* `SearchStep`: one round of the search;
* `search_steps`, `length_le_of_searchSteps`: the rounds lead to what is found, and there are not
  many of them;
* `Rooted.reaches_false_of_reaches_true`: interfaces lead to no class that superclasses do not lead
  to;
* `isSubclass_iff_reached`: the subclass test is reachability.
-/

namespace JvmLowering.Hierarchy

variable {g : Hierarchy} {a b c d : ClassId}

/-! ### Rounds of the search -/

section Search

variable {next : ClassId → List ClassId} {pending visited : List ClassId}

/-- One round of the search, on the classes that are pending and those that have been visited. -/
inductive SearchStep (g : Hierarchy) (next : ClassId → List ClassId) :
    List ClassId × List ClassId → List ClassId × List ClassId → Prop
  | visit {c : ClassId} {rest visited : List ClassId} (there : c ∈ g.classes) (new : c ∉ visited) :
      SearchStep g next (c :: rest, visited) (next c ++ rest, c :: visited)
  | skip {c : ClassId} {rest visited : List ClassId} (done : ¬ (c ∈ g.classes ∧ c ∉ visited)) :
      SearchStep g next (c :: rest, visited) (rest, visited)

/-- The search is such rounds until nothing is pending. -/
theorem search_steps (g : Hierarchy) (next : ClassId → List ClassId)
    (pending visited : List ClassId) :
    Relation.ReflTransGen (SearchStep g next) (pending, visited)
      ([], g.search next pending visited) := by
  fun_induction search g next pending visited with
  | case1 visited => exact .refl
  | case2 visited c rest h _ ih => exact .head (.visit h.1 h.2) ih
  | case3 visited c rest h ih => exact .head (.skip h) ih

/-- What is pending, and what the classes not yet visited can still add. -/
def searchMeasure (g : Hierarchy) (next : ClassId → List ClassId)
    (s : List ClassId × List ClassId) : Nat :=
  s.1.length + g.searchLeft next s.2

theorem SearchStep.measure_lt {s t : List ClassId × List ClassId} (h : SearchStep g next s t) :
    g.searchMeasure next t < g.searchMeasure next s := by
  cases h with
  | visit there new =>
    have hleft := searchLeft_cons next there new
    simp only [searchMeasure, List.length_append, List.length_cons]
    omega
  | skip done => simp [searchMeasure]

/-- No search has more rounds than there are classes and edges, and the one that it begins with. -/
theorem length_le_of_searchSteps {run : Nat → List ClassId × List ClassId} {n : Nat}
    (hrun : ∀ j < n, SearchStep g next (run j) (run (j + 1))) :
    n ≤ g.searchMeasure next (run 0) := by
  have hdescent : ∀ j ≤ n, j + g.searchMeasure next (run j) ≤ g.searchMeasure next (run 0) := by
    intro j
    induction j with
    | zero => simp
    | succ j ih =>
      intro hj
      have hstep := (hrun j hj).measure_lt
      have hj' := ih (Nat.le_of_succ_le hj)
      omega
  have hn := hdescent n (Nat.le_refl n)
  omega

theorem search_nodup (hv : visited.Nodup) : (g.search next pending visited).Nodup := by
  fun_induction search g next pending visited with
  | case1 visited => exact hv
  | case2 visited c rest h _ ih => exact ih (List.nodup_cons.2 ⟨h.2, hv⟩)
  | case3 visited c rest _ ih => exact ih hv

end Search

/-! ### Interfaces that need not be searched -/

theorem mem_parents_true : d ∈ g.parents true c ↔ d ∈ (g.cls c).superclass ∨
    d ∈ (g.cls c).interfaces := by
  simp [parents]

/-- A class that is no interface is reached over superclasses alone if it is reached at all. -/
theorem Rooted.reaches_false_of_reaches_true (hr : g.Rooted) (hw : g.WellFormed)
    (ha : a ∈ g.classes) (hb : (g.cls b).isInterface = false) (h : g.Reaches true a b) :
    g.Reaches false a b := by
  rw [hw.reaches_false_iff]
  induction h using Relation.ReflTransGen.head_induction_on with
  | refl => exact g.self_mem_ancestors b
  | @head a c hac _ ih =>
    have hc : c ∈ g.classes := hw.parents_mem hac
    rcases mem_parents_true.1 hac with hsuper | hinterface
    · rw [mem_ancestors_of_some (by rw [hw.superclass?_eq]; exact hsuper)]
      exact Or.inr (ih hc)
    · -- above an interface there is nothing else but `java/lang/Object`
      have hci := hr.interfaces a ha c hinterface
      rcases (hr.mem_ancestors_interface hw hc hci).1 (ih hc) with rfl | rfl
      · rw [hci] at hb
        exact absurd hb (by simp)
      · exact hr.object_mem_ancestors hw ha

/-! ### The subclass test -/

/-- **A subclass test is reachability.** It answers whether a class is reached over superclasses, or
also over interfaces if it is an interface. In a rooted hierarchy this is reachability over both,
whatever is asked for. The search for it visits each class that is reached once, and ends after a
bounded number of rounds. -/
theorem isSubclass_iff_reached (hg : g.Grown) (ha : a ∈ g.classes) :
    (g.Rooted → ∀ b, g.isSubclass a b = true ↔ g.Reaches true a b) ∧
    (∀ b, (g.cls b).isInterface = false → (g.isSubclass a b = true ↔ g.Reaches false a b)) ∧
    (∀ b, (g.cls b).isInterface = true → (g.isSubclass a b = true ↔ g.Reaches true a b)) ∧
    ∀ w, Relation.ReflTransGen (SearchStep g (g.parents w)) ([a], []) ([], g.supertypes w a) ∧
      (g.supertypes w a).Nodup ∧ (∀ c, c ∈ g.supertypes w a ↔ g.Reaches w a c) ∧
      ∀ n (run : Nat → List ClassId × List ClassId), run 0 = ([a], []) →
        (∀ j < n, SearchStep g (g.parents w) (run j) (run (j + 1))) →
          n ≤ 1 + g.searchLeft (g.parents w) [] := by
  have hw := hg.wellFormed
  have htest : ∀ b, g.isSubclass a b = true ↔ g.Reaches (g.cls b).isInterface a b := fun b => by
    rw [hw.isSubclass_iff, and_iff_right ha]
  refine ⟨fun hr b => ?_, fun b hb => by rw [htest, hb], fun b hb => by rw [htest, hb],
    fun w => ⟨search_steps .., ?_, ?_, ?_⟩⟩
  · rw [htest]
    cases hb : (g.cls b).isInterface with
    | true => rfl
    | false => exact ⟨Reaches.mono, hr.reaches_false_of_reaches_true hw ha hb⟩
  · exact search_nodup List.nodup_nil
  · exact fun c => hw.mem_supertypes_iff ha
  · intro n run hstart hrun
    have hn := length_le_of_searchSteps hrun
    rwa [hstart] at hn

/-- The platform with three of its interfaces above each other in a circle. -/
def circular : Hierarchy :=
  ((platform.addInterface ⟨2⟩ ⟨3⟩).addInterface ⟨3⟩ ⟨4⟩).addInterface ⟨4⟩ ⟨2⟩

/-- The platform with `java/lang/Number` listed as an interface of `java/lang/Object`, which it is
not. -/
def misdeclared : Hierarchy := platform.addInterface ⟨0⟩ ⟨7⟩

/-- Round the circle a number is `java/lang/Cloneable`, and nothing leads from there to a number. A
class that is listed as an interface is reached, but it is not searched for. -/
theorem isSubclass_iff_reached_circular :
    circular.Rooted ∧ circular.Reaches true ⟨2⟩ ⟨3⟩ ∧ circular.Reaches true ⟨3⟩ ⟨2⟩ ∧
      circular.Reaches true ⟨8⟩ ⟨2⟩ ∧
      ¬ circular.Reaches true ⟨2⟩ ⟨8⟩ ∧ ¬ misdeclared.Rooted ∧ misdeclared.Reaches true ⟨0⟩ ⟨7⟩ ∧
        ¬ misdeclared.Reaches false ⟨0⟩ ⟨7⟩ := by
  have hsize : platform.classes.size = 14 := by decide +kernel
  have hmem : ∀ n < 14, (⟨n⟩ : ClassId) ∈ platform.classes :=
    fun n hn => Table.mem_def.2 (Nat.lt_of_lt_of_eq hn hsize.symm)
  have hgrown : (platform.addInterface ⟨2⟩ ⟨3⟩).Grown :=
    Grown.initial.addPlatform.addInterface (hmem 2 (by decide)) (hmem 3 (by decide))
  have hgrown : ((platform.addInterface ⟨2⟩ ⟨3⟩).addInterface ⟨3⟩ ⟨4⟩).Grown :=
    hgrown.addInterface (mem_addInterface.2 (hmem 3 (by decide)))
      (mem_addInterface.2 (hmem 4 (by decide)))
  have hgrown : circular.Grown :=
    hgrown.addInterface (mem_addInterface.2 (mem_addInterface.2 (hmem 4 (by decide))))
      (mem_addInterface.2 (mem_addInterface.2 (hmem 2 (by decide))))
  have hgrown' : misdeclared.Grown :=
    Grown.initial.addPlatform.addInterface (hmem 0 (by decide)) (hmem 7 (by decide))
  have hanswers : circular.Rooted ∧ circular.isSubclass ⟨2⟩ ⟨3⟩ = true ∧
      circular.isSubclass ⟨3⟩ ⟨2⟩ = true ∧ circular.isSubclass ⟨8⟩ ⟨2⟩ = true ∧
      circular.isSubclass ⟨2⟩ ⟨8⟩ = false := by
    decide +kernel
  have hanswers' : ¬ misdeclared.Rooted ∧ ⟨7⟩ ∈ misdeclared.parents true ⟨0⟩ ∧
      (misdeclared.cls ⟨7⟩).isInterface = false ∧ misdeclared.isSubclass ⟨0⟩ ⟨7⟩ = false := by
    decide +kernel
  obtain ⟨hr, hround, hback, hnumber, hnone⟩ := hanswers
  obtain ⟨hunrooted, hlisted, hclass, hmissed⟩ := hanswers'
  have hreach : ∀ n < 14, ∀ b,
      circular.isSubclass ⟨n⟩ b = true ↔ circular.Reaches true ⟨n⟩ b := fun n hn =>
    (isSubclass_iff_reached hgrown
      (mem_addInterface.2 (mem_addInterface.2 (mem_addInterface.2 (hmem n hn))))).1 hr
  have hunreached :=
    (isSubclass_iff_reached hgrown' (mem_addInterface.2 (hmem 0 (by decide)))).2.1 ⟨7⟩ hclass
  refine ⟨hr, (hreach 2 (by decide) _).1 hround, (hreach 3 (by decide) _).1 hback,
    (hreach 8 (by decide) _).1 hnumber, fun h => ?_, hunrooted, .single hlisted, fun h => ?_⟩
  · simp [(hreach 2 (by decide) _).2 h] at hnone
  · simp [hunreached.2 h] at hmissed

end JvmLowering.Hierarchy
