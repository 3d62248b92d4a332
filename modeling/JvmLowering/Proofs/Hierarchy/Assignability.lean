import JvmLowering.Hierarchy.Platform
import JvmLowering.Proofs.FlowType.Semilattice
import JvmLowering.Proofs.Hierarchy.Growth
import Mathlib.Logic.Relation

/-!
# Assignability

The search over supertypes finds exactly the classes that are reached from a class. In hierarchies
that keep the conventions of the platform, what lies above a type in the tree of reference types is
assignable from it, and apart from interfaces there is nothing else.

* `Rooted`, `Conventional`, `Standard`: conventions, each with the ones before it;
* `isSubclass_iff`: a subclass test is reachability;
* `isAssignable_of_refLE`, `refLE_of_isAssignable`: assignability and the tree;
* `isAssignable_trans`: assignability is transitive.
-/

namespace JvmLowering.Hierarchy

variable {g : Hierarchy} {a b c d : ClassId}

/-! ### The search -/

section Search

variable {next : ClassId → List ClassId} {pending visited : List ClassId}

theorem mem_search (h : c ∈ g.search next pending visited) :
    c ∈ visited ∨ ∃ p ∈ pending, Relation.ReflTransGen (fun a b => b ∈ next a) p c := by
  fun_induction search g next pending visited with
  | case1 visited => exact Or.inl h
  | case2 visited p rest _ _ ih =>
    rcases ih h with hv | ⟨q, hq, hr⟩
    · rcases List.mem_cons.1 hv with rfl | hv
      · exact Or.inr ⟨c, List.mem_cons_self, .refl⟩
      · exact Or.inl hv
    · rcases List.mem_append.1 hq with hq | hq
      · exact Or.inr ⟨p, List.mem_cons_self, .head hq hr⟩
      · exact Or.inr ⟨q, List.mem_cons_of_mem p hq, hr⟩
  | case3 visited p rest _ ih =>
    rcases ih h with hv | ⟨q, hq, hr⟩
    · exact Or.inl hv
    · exact Or.inr ⟨q, List.mem_cons_of_mem p hq, hr⟩

/-- The search keeps what it has visited, takes up all that is pending, and ends with a set that is
closed. -/
theorem search_closed
    (hv : ∀ c ∈ visited, ∀ d ∈ next c, d ∈ g.classes → d ∈ visited ∨ d ∈ pending) :
    (∀ c ∈ visited, c ∈ g.search next pending visited) ∧
      (∀ c ∈ pending, c ∈ g.classes → c ∈ g.search next pending visited) ∧
      ∀ c ∈ g.search next pending visited, ∀ d ∈ next c, d ∈ g.classes →
        d ∈ g.search next pending visited := by
  fun_induction search g next pending visited with
  | case1 visited =>
    -- nothing is pending, so what is visited is closed
    refine ⟨fun c hc => hc, fun c hc => absurd hc List.not_mem_nil, fun c hc d hd hdg => ?_⟩
    exact (hv c hc d hd hdg).resolve_right List.not_mem_nil
  | case2 visited p rest _ _ ih =>
    -- the class is visited now, and all that comes next is pending
    obtain ⟨h1, h2, h3⟩ := ih (by
      intro c hc d hd hdg
      rcases List.mem_cons.1 hc with rfl | hc
      · exact Or.inr (List.mem_append_left rest hd)
      · rcases hv c hc d hd hdg with h | h
        · exact Or.inl (List.mem_cons_of_mem p h)
        · rcases List.mem_cons.1 h with rfl | h
          · exact Or.inl List.mem_cons_self
          · exact Or.inr (List.mem_append_right _ h))
    refine ⟨fun c hc => h1 c (List.mem_cons_of_mem p hc), fun c hc hcg => ?_, h3⟩
    rcases List.mem_cons.1 hc with rfl | hc
    · exact h1 c List.mem_cons_self
    · exact h2 c (List.mem_append_right _ hc) hcg
  | case3 visited p rest hp ih =>
    -- the class is passed over: it is not there, or it has been visited
    have hpv : p ∈ g.classes → p ∈ visited :=
      fun hpg => Classical.not_not.1 fun hpn => hp ⟨hpg, hpn⟩
    obtain ⟨h1, h2, h3⟩ := ih (by
      intro c hc d hd hdg
      rcases hv c hc d hd hdg with h | h
      · exact Or.inl h
      · rcases List.mem_cons.1 h with rfl | h
        · exact Or.inl (hpv hdg)
        · exact Or.inr h)
    refine ⟨h1, fun c hc hcg => ?_, h3⟩
    rcases List.mem_cons.1 hc with rfl | hc
    · exact h1 c (hpv hcg)
    · exact h2 c hc hcg

end Search

/-- `d` is reached from `c` over superclasses, and over interfaces if these count. -/
def Reaches (g : Hierarchy) (withInterfaces : Bool) : ClassId → ClassId → Prop :=
  Relation.ReflTransGen fun c d => d ∈ g.parents withInterfaces c

theorem Reaches.mono {w : Bool} (h : g.Reaches w c d) : g.Reaches true c d := by
  refine Relation.ReflTransGen.mono (fun a b hab => ?_) _ _ h
  rcases List.mem_append.1 hab with h | h
  · exact List.mem_append_left _ h
  · cases w
    · exact absurd h List.not_mem_nil
    · exact List.mem_append_right _ h

/-- A class that is not there is assignable to nothing. -/
theorem mem_of_isSubclass (hs : g.isSubclass c d = true) : c ∈ g.classes := by
  by_contra hc
  have hn : g.supertypes (g.cls d).isInterface c = [] := by
    unfold supertypes
    rw [search, dif_neg (fun hc' => hc hc'.1), search]
  simp [isSubclass, hn] at hs

theorem self_mem_supertypes {w : Bool} (hc : c ∈ g.classes) : c ∈ g.supertypes w c :=
  (search_closed fun _ hb => absurd hb List.not_mem_nil).2.1 c List.mem_cons_self hc

theorem mem_supertypes_of_parent {w : Bool} (hb : b ∈ g.supertypes w c) (hd : d ∈ g.parents w b)
    (hdg : d ∈ g.classes) :
    d ∈ g.supertypes w c :=
  (search_closed fun _ hb => absurd hb List.not_mem_nil).2.2 b hb d hd hdg

namespace WellFormed

theorem parents_mem (h : g.WellFormed) {w : Bool} (hd : d ∈ g.parents w c) : d ∈ g.classes := by
  rcases List.mem_append.1 hd with hd | hd
  · exact h.superclass_mem (Option.mem_toList.1 hd)
  · split at hd
    · exact h.interfaces_mem c d hd
    · exact absurd hd List.not_mem_nil

theorem mem_of_reaches (h : g.WellFormed) {w : Bool} (hc : c ∈ g.classes) (hr : g.Reaches w c d) :
    d ∈ g.classes := by
  induction hr with
  | refl => exact hc
  | tail _ hd _ => exact h.parents_mem hd

theorem mem_supertypes_iff (h : g.WellFormed) {w : Bool} (hc : c ∈ g.classes) :
    d ∈ g.supertypes w c ↔ g.Reaches w c d := by
  constructor
  · intro hd
    rcases mem_search hd with hd | ⟨p, hp, hr⟩
    · exact absurd hd List.not_mem_nil
    · rwa [List.mem_singleton.1 hp] at hr
  · intro hr
    induction hr with
    | refl => exact self_mem_supertypes hc
    | tail _ hd ih => exact mem_supertypes_of_parent ih hd (h.parents_mem hd)

theorem isSubclass_iff (h : g.WellFormed) :
    g.isSubclass c d = true ↔ c ∈ g.classes ∧ g.Reaches (g.cls d).isInterface c d := by
  constructor
  · intro hs
    have hc := mem_of_isSubclass hs
    exact ⟨hc, (h.mem_supertypes_iff hc).1 (by simpa [isSubclass] using hs)⟩
  · rintro ⟨hc, hr⟩
    simpa [isSubclass] using (h.mem_supertypes_iff hc).2 hr

/-- Over superclasses alone the chain of superclasses is reached. -/
theorem reaches_false_iff (h : g.WellFormed) : g.Reaches false c d ↔ d ∈ g.ancestors c := by
  have hstep : ∀ a b, b ∈ g.parents false a ↔ g.superclass? a = some b := by
    intro a b
    rw [h.superclass?_eq]
    simp [parents]
  constructor
  · intro hr
    induction hr with
    | refl => exact g.self_mem_ancestors c
    | tail _ hb ih =>
      refine mem_ancestors_trans ih ?_
      rw [mem_ancestors_of_some ((hstep _ _).1 hb)]
      exact Or.inr (g.self_mem_ancestors _)
  · intro hd
    induction c using ancestry_induction g with
    | root c hs =>
      rw [mem_ancestors_of_none hs] at hd
      rw [hd]
      exact Relation.ReflTransGen.refl
    | below c s hs ih =>
      rcases (mem_ancestors_of_some hs).1 hd with rfl | hd
      · exact Relation.ReflTransGen.refl
      · exact Relation.ReflTransGen.head ((hstep _ _).2 hs) (ih hd)

end WellFormed

/-! ### Conventions -/

/-- Every class has a superclass, only interfaces are listed as such, and interfaces stand directly
below `java/lang/Object`. -/
structure Rooted (g : Hierarchy) : Prop where
  superclass : ∀ c ∈ g.classes, c ≠ object → (g.cls c).superclass ≠ none
  interfaces : ∀ c ∈ g.classes, ∀ i ∈ (g.cls c).interfaces, (g.cls i).isInterface = true
  interface_superclass : ∀ c ∈ g.classes, (g.cls c).isInterface = true →
    (g.cls c).superclass = some object

/-- Has the name of an interface of all arrays. -/
def IsArrayInterface (g : Hierarchy) (c : ClassId) : Prop :=
  (g.cls c).name = .cloneable ∨ (g.cls c).name = .serializable

/-- Also the interfaces of arrays are interfaces. -/
structure Conventional (g : Hierarchy) : Prop extends Rooted g where
  arrayInterface : ∀ c ∈ g.classes, g.IsArrayInterface c → (g.cls c).isInterface = true

/-- Also neither `java/lang/Object` nor the interfaces of arrays have interfaces above them. -/
structure Standard (g : Hierarchy) : Prop extends Conventional g where
  object_interfaces : (g.cls object).interfaces = []
  arrayInterface_interfaces : ∀ c ∈ g.classes, g.IsArrayInterface c → (g.cls c).interfaces = []

/-- The class that a reference type mentions, if it mentions one, is not an interface. -/
def InterfaceFree (g : Hierarchy) (r : RefType ClassId) : Prop :=
  ∀ c ∈ r.class?, (g.cls c).isInterface = false

section Decidable

instance (c : ClassId) : Decidable (g.IsArrayInterface c) :=
  inferInstanceAs (Decidable ((g.cls c).name = .cloneable ∨ (g.cls c).name = .serializable))

theorem rooted_iff : g.Rooted ↔
    ∀ c ∈ g.classes.indices, (c ≠ object → (g.cls c).superclass ≠ none) ∧
      (∀ i ∈ (g.cls c).interfaces, (g.cls i).isInterface = true) ∧
      ((g.cls c).isInterface = true → (g.cls c).superclass = some object) := by
  simp only [Table.mem_indices]
  exact ⟨fun h c hc => ⟨h.superclass c hc, h.interfaces c hc, h.interface_superclass c hc⟩,
    fun h => ⟨fun c hc => (h c hc).1, fun c hc => (h c hc).2.1, fun c hc => (h c hc).2.2⟩⟩

instance (g : Hierarchy) : Decidable g.Rooted := decidable_of_iff' _ rooted_iff

theorem conventional_iff : g.Conventional ↔
    g.Rooted ∧ ∀ c ∈ g.classes.indices, g.IsArrayInterface c → (g.cls c).isInterface = true := by
  simp only [Table.mem_indices]
  exact ⟨fun h => ⟨h.toRooted, h.arrayInterface⟩, fun h => ⟨h.1, h.2⟩⟩

instance (g : Hierarchy) : Decidable g.Conventional := decidable_of_iff' _ conventional_iff

theorem standard_iff : g.Standard ↔
    g.Conventional ∧ (g.cls object).interfaces = [] ∧
      ∀ c ∈ g.classes.indices, g.IsArrayInterface c → (g.cls c).interfaces = [] := by
  simp only [Table.mem_indices]
  exact ⟨fun h => ⟨h.toConventional, h.object_interfaces, h.arrayInterface_interfaces⟩,
    fun h => ⟨h.1, h.2.1, h.2.2⟩⟩

instance (g : Hierarchy) : Decidable g.Standard := decidable_of_iff' _ standard_iff

end Decidable

/-! ### Classes -/

section Classes

variable (hw : g.WellFormed)

include hw

theorem WellFormed.mem_of_mem_ancestors (hc : c ∈ g.classes) (hd : d ∈ g.ancestors c) :
    d ∈ g.classes :=
  hw.mem_of_reaches hc (hw.reaches_false_iff.2 hd)

theorem WellFormed.leastUpperBound_mem_classes (ha : a ∈ g.classes) :
    g.leastUpperBound a b ∈ g.classes := by
  by_cases h : g.leastUpperBound a b = object
  · rw [h]
    exact hw.object_mem
  · exact hw.mem_of_mem_ancestors ha (leastUpperBound_mem h)

theorem Rooted.object_mem_ancestors (hr : g.Rooted) (hc : c ∈ g.classes) :
    object ∈ g.ancestors c := by
  induction c using ancestry_induction g with
  | root c hs =>
    rw [hw.superclass?_eq] at hs
    rw [Classical.not_not.1 fun hne => hr.superclass c hc hne hs]
    exact g.self_mem_ancestors object
  | below c s hs ih =>
    rw [hw.superclass?_eq] at hs
    refine mem_ancestors_trans ?_ (ih (hw.superclass_mem hs))
    rw [mem_ancestors_of_some (by rw [hw.superclass?_eq, hs])]
    exact Or.inr (g.self_mem_ancestors s)

theorem Rooted.classLE_iff (hr : g.Rooted) (hc : c ∈ g.classes) :
    g.ClassLE c d ↔ d ∈ g.ancestors c := by
  refine ⟨?_, Or.inl⟩
  rintro (h | rfl)
  · exact h
  · exact hr.object_mem_ancestors hw hc

/-- A superclass is reached whether or not interfaces are searched. -/
theorem Rooted.isSubclass_of_classLE (hr : g.Rooted) (hc : c ∈ g.classes) (h : g.ClassLE c d) :
    g.isSubclass c d = true := by
  have hreach : g.Reaches false c d := hw.reaches_false_iff.2 ((hr.classLE_iff hw hc).1 h)
  refine hw.isSubclass_iff.2 ⟨hc, ?_⟩
  cases (g.cls d).isInterface
  · exact hreach
  · exact hreach.mono

theorem WellFormed.isSubclass_refl (hc : c ∈ g.classes) : g.isSubclass c c = true :=
  hw.isSubclass_iff.2 ⟨hc, Relation.ReflTransGen.refl⟩

theorem WellFormed.classLE_of_isSubclass (hd : (g.cls d).isInterface = false)
    (h : g.isSubclass c d = true) :
    g.ClassLE c d := by
  obtain ⟨-, hr⟩ := hw.isSubclass_iff.1 h
  rw [hd] at hr
  exact Or.inl (hw.reaches_false_iff.1 hr)

/-- Above an interface there is no class but `java/lang/Object`. -/
theorem Rooted.mem_ancestors_interface (hr : g.Rooted) (hc : c ∈ g.classes)
    (hi : (g.cls c).isInterface = true) :
    d ∈ g.ancestors c ↔ d = c ∨ d = object := by
  have hs : g.superclass? c = some object := by
    rw [hw.superclass?_eq, hr.interface_superclass c hc hi]
  rw [mem_ancestors_of_some hs, ancestors_object, List.mem_singleton]

theorem Rooted.isSubclass_trans (hr : g.Rooted) (hab : g.isSubclass a b = true)
    (hbc : g.isSubclass b c = true) :
    g.isSubclass a c = true := by
  obtain ⟨ha, hra⟩ := hw.isSubclass_iff.1 hab
  obtain ⟨hb, hrb⟩ := hw.isSubclass_iff.1 hbc
  cases hc : (g.cls c).isInterface with
  | true =>
    refine hw.isSubclass_iff.2 ⟨ha, ?_⟩
    rw [hc]
    exact Relation.ReflTransGen.trans hra.mono hrb.mono
  | false =>
    rw [hc, hw.reaches_false_iff] at hrb
    cases hb' : (g.cls b).isInterface with
    | true =>
      rcases (hr.mem_ancestors_interface hw hb hb').1 hrb with rfl | rfl
      · exact hab
      · exact hr.isSubclass_of_classLE hw ha (g.classLE_object a)
    | false =>
      rw [hb', hw.reaches_false_iff] at hra
      exact hr.isSubclass_of_classLE hw ha (Or.inl (mem_ancestors_trans hra hrb))

end Classes

/-! ### Class types above arrays -/

theorem isAboveArrays_iff : g.isAboveArrays c = true ↔ (g.cls c).name = .object ∨
    g.IsArrayInterface c := by
  simp [isAboveArrays, IsArrayInterface, or_assoc]

theorem WellFormed.isAboveArrays_object (hw : g.WellFormed) : g.isAboveArrays object = true :=
  isAboveArrays_iff.2 (Or.inl hw.object_name)

theorem Conventional.eq_object_of_isAboveArrays (hv : g.Conventional) (hw : g.WellFormed)
    (hc : c ∈ g.classes) (hi : (g.cls c).isInterface = false) (h : g.isAboveArrays c = true) :
    c = object := by
  rcases isAboveArrays_iff.1 h with hn | hn
  · exact hw.eq_object hc hn
  · rw [hv.arrayInterface c hc hn] at hi
    exact absurd hi (by simp)

/-- The class types above arrays have nothing else above them. -/
theorem Standard.isAboveArrays_of_isSubclass (hs : g.Standard) (hw : g.WellFormed)
    (h : g.isAboveArrays c = true) (hcd : g.isSubclass c d = true) : g.isAboveArrays d = true := by
  obtain ⟨hc, hr⟩ := hw.isSubclass_iff.1 hcd
  -- one step up from such a class leads nowhere, or to `java/lang/Object`
  have hstep : ∀ a ∈ g.classes, g.isAboveArrays a = true → ∀ b ∈ g.parents true a, b = object := by
    intro a ha hab b hb
    rcases isAboveArrays_iff.1 hab with hn | hn
    · rw [hw.eq_object ha hn] at hb
      simp [parents, hw.object_superclass, hs.object_interfaces] at hb
    · have hsuper := hs.interface_superclass a ha (hs.arrayInterface a ha hn)
      simpa [parents, hsuper, hs.arrayInterface_interfaces a ha hn] using hb
  have hr' : g.Reaches true c d := hr.mono
  clear hcd hr
  induction hr' with
  | refl => exact h
  | tail hp hb ih =>
    rw [hstep _ (hw.mem_of_reaches hc hp) ih _ hb]
    exact hw.isAboveArrays_object

/-! ### Reference types -/

section RefTypes

variable {r s t : RefType ClassId}

theorem WellFormed.knows_joinShapes (hw : g.WellFormed) {p q : Nat × ClassId}
    (hp : p.2 ∈ g.classes) :
    g.Knows (g.joinShapes p q) := by
  obtain ⟨_ | k, a⟩ := p
  · exact knows_object.2 hw.object_mem
  obtain ⟨_ | l, b⟩ := q
  · exact knows_object.2 hw.object_mem
  simp only [joinShapes]
  split
  · exact knows_array_cls.2 (hw.leastUpperBound_mem_classes hp)
  · exact knows_array_cls.2 hw.object_mem

theorem WellFormed.knows_joinRef (hw : g.WellFormed) (hr : g.Knows r) :
    g.Knows (g.joinRef r s) := by
  rcases r with a | ⟨m, a⟩
  · rcases s with b | ⟨n, b⟩
    · exact knows_object.2 (hw.leastUpperBound_mem_classes (knows_object.1 hr))
    · exact knows_object.2 hw.object_mem
  · rcases s with b | ⟨n, b⟩
    · exact knows_object.2 hw.object_mem
    · simp only [joinRef]
      split
      · exact hr
      · refine hw.knows_joinShapes ?_
        rcases a with a | a
        · exact hw.object_mem
        · exact knows_array_cls.1 hr

/-- What lies above a type in the tree is assignable from it. -/
theorem Rooted.isAssignable_of_refLE (hr : g.Rooted) (hw : g.WellFormed) (hk : g.Knows r)
    (h : g.RefLE r s) :
    g.isAssignable r s = true := by
  rcases r with a | ⟨m, a | a⟩
  · rcases s with b | ⟨n, b⟩
    · exact hr.isSubclass_of_classLE hw (knows_object.1 hk) h
    · exact absurd h id
  · rcases s with b | ⟨n, b | b⟩
    · have hb : b = object := h
      subst hb
      exact hw.isAboveArrays_object
    · obtain ⟨rfl, rfl⟩ := h
      simp [isAssignable]
    · obtain ⟨hn, rfl⟩ := h
      simp [isAssignable, hn, hw.isAboveArrays_object]
  · rcases s with b | ⟨n, b | b⟩
    · have hb : b = object := h
      subst hb
      exact hw.isAboveArrays_object
    · exact absurd h id
    · rcases h with ⟨rfl, hab⟩ | ⟨hn, rfl⟩
      · simpa [isAssignable] using hr.isSubclass_of_classLE hw (knows_array_cls.1 hk) hab
      · have hne : m ≠ n := Nat.ne_of_gt hn
        simp [isAssignable, hn, hne, hw.isAboveArrays_object]

/-- Types that mention no interface are assignable only from what lies below them in the tree. -/
theorem Conventional.refLE_of_isAssignable (hv : g.Conventional) (hw : g.WellFormed)
    (hk : g.Knows s) (hf : g.InterfaceFree s) (h : g.isAssignable r s = true) : g.RefLE r s := by
  rcases s with b | ⟨n, b | b⟩
  · have hb : (g.cls b).isInterface = false := hf b rfl
    rcases r with a | ⟨m, a⟩
    · exact hw.classLE_of_isSubclass hb h
    · exact hv.eq_object_of_isAboveArrays hw (knows_object.1 hk) hb h
  · rcases r with a | ⟨m, a | a⟩
    · simp [isAssignable] at h
    · simp only [isAssignable, Bool.and_eq_true, decide_eq_true_eq] at h
      exact h
    · simp [isAssignable] at h
  · have hb : (g.cls b).isInterface = false := hf b rfl
    have hobject : g.isAboveArrays b = true → b = object :=
      hv.eq_object_of_isAboveArrays hw (knows_array_cls.1 hk) hb
    rcases r with a | ⟨m, a | a⟩
    · simp [isAssignable] at h
    · simp only [isAssignable, Bool.and_eq_true, decide_eq_true_eq] at h
      exact ⟨h.1, hobject h.2⟩
    · simp only [isAssignable] at h
      split at h
      · rename_i hmn
        exact Or.inl ⟨hmn, hw.classLE_of_isSubclass hb h⟩
      · simp only [Bool.and_eq_true, decide_eq_true_eq] at h
        exact Or.inr ⟨h.1, hobject h.2⟩

theorem WellFormed.isAssignable_refl (hw : g.WellFormed) (hk : g.Knows r) :
    g.isAssignable r r = true := by
  rcases r with a | ⟨m, a | a⟩
  · exact hw.isSubclass_refl (knows_object.1 hk)
  · simp [isAssignable]
  · simpa [isAssignable] using hw.isSubclass_refl (knows_array_cls.1 hk)

theorem Standard.isAssignable_trans (hs : g.Standard) (hw : g.WellFormed)
    (h : g.isAssignable r s = true) (h' : g.isAssignable s t = true) :
    g.isAssignable r t = true := by
  rcases s with b | ⟨n, b⟩
  · rcases t with c | ⟨k, c⟩
    · rcases r with a | ⟨m, a⟩
      · exact hs.isSubclass_trans hw h h'
      · exact hs.isAboveArrays_of_isSubclass hw h h'
    · simp [isAssignable] at h'
  · rcases r with a | ⟨m, a⟩
    · simp [isAssignable] at h
    · rcases t with c | ⟨k, c | c⟩
      · exact h'
      · rcases b with b | b
        · simp only [isAssignable, Bool.and_eq_true, decide_eq_true_eq] at h'
          obtain ⟨rfl, rfl⟩ := h'
          exact h
        · simp [isAssignable] at h'
      · -- arrays of classes: as many dimensions and a superclass, or fewer and one above arrays
        rcases b with b | b
        · rcases a with a | a
          · simp only [isAssignable, Bool.and_eq_true, decide_eq_true_eq] at h h' ⊢
            obtain ⟨rfl, rfl⟩ := h
            exact h'
          · simp [isAssignable] at h
        · have hup : ∀ {l : Nat}, n < l → g.isAboveArrays b = true →
              k < l ∧ g.isAboveArrays c = true := by
            intro l hl hab
            simp only [isAssignable] at h'
            split at h'
            · rename_i hnk
              exact ⟨hnk ▸ hl, hs.isAboveArrays_of_isSubclass hw hab h'⟩
            · simp only [Bool.and_eq_true, decide_eq_true_eq] at h'
              exact ⟨Nat.lt_trans h'.1 hl, h'.2⟩
          rcases a with a | a
          · simp only [isAssignable, Bool.and_eq_true, decide_eq_true_eq] at h ⊢
            exact hup h.1 h.2
          · simp only [isAssignable] at h
            split at h
            · rename_i hmn
              subst hmn
              simp only [isAssignable] at h' ⊢
              split at h'
              · rename_i hmk
                simpa [hmk] using hs.isSubclass_trans hw h h'
              · rename_i hmk
                simpa [hmk] using h'
            · simp only [Bool.and_eq_true, decide_eq_true_eq] at h
              obtain ⟨hkm, hc⟩ := hup h.1 h.2
              have hne : m ≠ k := Nat.ne_of_gt hkm
              simp [isAssignable, hne, hkm, hc]

end RefTypes

end JvmLowering.Hierarchy
