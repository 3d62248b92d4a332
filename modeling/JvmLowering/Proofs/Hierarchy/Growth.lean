import JvmLowering.Hierarchy.Ancestors
import JvmLowering.Hierarchy.Platform
import JvmLowering.JvmType.Verification
import JvmLowering.Proofs.Attempt

/-!
# How hierarchies grow

A hierarchy begins with `java/lang/Object` and gains classes, interfaces and methods, each of which
mentions only what is there already. Superclasses are therefore older than their subclasses, and
names stay distinct.

* `Grown`: the hierarchies that can be built;
* `Grown.wellFormed`: what all of them have in common;
* `Grown.addPlatform`: the platform is added by such steps.
-/

namespace JvmLowering

/-! ### What a type mentions -/

/-- The class that a reference type mentions, if it mentions one. -/
def RefType.class? {C : Type} : RefType C → Option C
  | .object c | .array _ (.cls c) => some c
  | .array _ (.base _) => none

/-- The class that the type of a field mentions. -/
def FieldType.class? {C : Type} : FieldType C → Option C
  | .base _ => none
  | .ref r => r.class?

/-- The class that a declared type mentions. -/
def DeclaredType.class? {C : Type} : DeclaredType C → Option C
  | .null => none
  | .field t => t.class?

namespace Hierarchy

/-- The class that a reference type mentions is there. -/
def Knows (g : Hierarchy) (r : RefType ClassId) : Prop := ∀ c ∈ r.class?, c ∈ g.classes

instance (g : Hierarchy) (r : RefType ClassId) : Decidable (g.Knows r) :=
  inferInstanceAs (Decidable (∀ c ∈ r.class?, c ∈ g.classes))

/-- What a method mentions is there. -/
structure KnowsMethod (g : Hierarchy) (m : MethodData) : Prop where
  owner : m.owner ∈ g.classes
  parameters : ∀ t ∈ m.type.parameters, ∀ c ∈ t.class?, c ∈ g.classes
  result : ∀ t ∈ m.type.result, ∀ c ∈ t.class?, c ∈ g.classes

variable {g g' : Hierarchy} {c d i : ClassId}

@[simp] theorem knows_object : g.Knows (.object c) ↔ c ∈ g.classes := by
  simp [Knows, RefType.class?]

@[simp] theorem knows_array_cls {n : Nat} : g.Knows (.array n (.cls c)) ↔ c ∈ g.classes := by
  simp [Knows, RefType.class?]

@[simp] theorem knows_array_base {n : Nat} {b : BaseType} : g.Knows (.array n (.base b)) := by
  simp [Knows, RefType.class?]

theorem KnowsMethod.mono {m : MethodData} (h : g.KnowsMethod m)
    (hg : ∀ c ∈ g.classes, c ∈ g'.classes) :
    g'.KnowsMethod m :=
  ⟨hg _ h.owner, fun t ht c hc => hg c (h.parameters t ht c hc),
    fun t ht c hc => hg c (h.result t ht c hc)⟩

/-! ### Growing -/

/-- Hierarchies that are built step by step. -/
inductive Grown : Hierarchy → Prop
  | initial : Grown initial
  | addClass {g g' : Hierarchy} {data : ClassData} {c : ClassId} (grown : Grown g)
      (superclass : ∀ s ∈ data.superclass, s ∈ g.classes)
      (interfaces : ∀ i ∈ data.interfaces, i ∈ g.classes)
      (added : g.addClass data = .ok (c, g')) : Grown g'
  | addInterface {g : Hierarchy} {c i : ClassId} (grown : Grown g) (cls : c ∈ g.classes)
      (interface : i ∈ g.classes) :
      Grown (g.addInterface c i)
  | addMethod {g : Hierarchy} {m : MethodData} (grown : Grown g) (known : g.KnowsMethod m) :
      Grown (g.addMethod m).2

/-- What holds of every hierarchy that is built step by step. -/
structure WellFormed (g : Hierarchy) : Prop where
  object_mem : object ∈ g.classes
  object_name : (g.cls object).name = .object
  object_superclass : (g.cls object).superclass = none
  object_isInterface : (g.cls object).isInterface = false
  /-- A superclass is older. -/
  superclass_lt : ∀ c, ∀ s ∈ (g.cls c).superclass, s.num < c.num
  interfaces_mem : ∀ c, ∀ i ∈ (g.cls c).interfaces, i ∈ g.classes
  name_inj : ∀ c ∈ g.classes, ∀ d ∈ g.classes, (g.cls c).name = (g.cls d).name → c = d
  methods_known : ∀ m ∈ g.methods, g.KnowsMethod (g.method m)

/-! ### What each step does -/

theorem lookup_eq_none {name : BinaryName} (h : g.lookup name = none) (hc : c ∈ g.classes) :
    (g.cls c).name ≠ name := by
  have := List.find?_eq_none.1 h c (Table.mem_indices.2 hc)
  simpa [cls] using this

/-- A class that is added is the newest one, and no other class had its name. -/
theorem addClass_ok {data : ClassData} (h : g.addClass data = .ok (c, g')) :
    c = g.classes.next ∧ g' = { g with classes := g.classes.push data } ∧
      g.lookup data.name = none := by
  unfold addClass at h
  split at h
  · simp at h
  · rename_i hn
    simp only [Except.ok.injEq, Prod.mk.injEq] at h
    exact ⟨h.1.symm, h.2.symm, hn⟩

theorem cls_push (g : Hierarchy) (data : ClassData) (c : ClassId) :
    ({ g with classes := g.classes.push data } : Hierarchy).cls c = if c = g.classes.next then
      data else g.cls c :=
  Table.get_push _ _ _

theorem cls_push_of_mem (data : ClassData) (hc : c ∈ g.classes) :
    ({ g with classes := g.classes.push data } : Hierarchy).cls c = g.cls c := by
  rw [cls_push, if_neg]
  rintro rfl
  exact Table.next_notMem _ hc

theorem cls_addInterface (g : Hierarchy) (c i d : ClassId) :
    (g.addInterface c i).cls d =
      if c = d ∧ d ∈ g.classes then { g.cls d with interfaces := (g.cls d).interfaces ++ [i] }
        else g.cls d :=
  Table.get_modify _ _ _ _

theorem cls_of_notMem (h : c ∉ g.classes) : g.cls c = .object := Table.get_of_notMem h

theorem mem_addInterface : d ∈ (g.addInterface c i).classes ↔ d ∈ g.classes := Table.mem_modify

/-- Adding a method changes the methods of its class only. -/
theorem cls_addMethod (g : Hierarchy) (m : MethodData) (c : ClassId) :
    ∃ methods, (g.addMethod m).2.cls c = { g.cls c with methods } := by
  unfold addMethod
  split
  · exact ⟨(g.cls c).methods, rfl⟩
  · simp only [cls, Table.get_modify]
    split
    · exact ⟨_, rfl⟩
    · exact ⟨(g.cls c).methods, rfl⟩

theorem mem_addMethod {m : MethodData} : c ∈ (g.addMethod m).2.classes ↔ c ∈ g.classes := by
  unfold addMethod
  split
  · rfl
  · exact Table.mem_modify

/-- Every method of a hierarchy to which one is added was there before or is the new one. -/
theorem method_addMethod {m : MethodData} {k : MethodId} (h : k ∈ (g.addMethod m).2.methods) :
    (k ∈ g.methods ∧ (g.addMethod m).2.method k = g.method k) ∨ (g.addMethod m).2.method k = m := by
  unfold addMethod at h ⊢
  split at h
  · exact Or.inl ⟨h, rfl⟩
  · simp only [method, Table.get_push]
    rcases Table.mem_push.1 h with hk | rfl
    · refine Or.inl ⟨hk, if_neg ?_⟩
      rintro rfl
      exact Table.next_notMem _ hk
    · exact Or.inr (if_pos rfl)

/-! ### What they preserve -/

theorem wellFormed_initial : WellFormed initial := by
  have hcls : ∀ c, initial.cls c = .object := by
    intro c
    by_cases hc : c ∈ initial.classes
    · obtain ⟨n⟩ := c
      have hn : n = 0 := Nat.lt_one_iff.1 hc
      subst hn
      rfl
    · exact cls_of_notMem hc
  have hmem : ∀ c ∈ initial.classes, c = object := by
    intro c hc
    obtain ⟨n⟩ := c
    exact congrArg Index.mk (Nat.lt_one_iff.1 hc)
  refine ⟨by decide, rfl, rfl, rfl, ?_, ?_, ?_, ?_⟩
  · intro c s hs
    rw [hcls] at hs
    exact absurd hs (by simp [ClassData.object])
  · intro c i hi
    rw [hcls] at hi
    exact absurd hi (by simp [ClassData.object])
  · intro c hc d hd _
    rw [hmem c hc, hmem d hd]
  · intro m hm
    exact absurd hm (Nat.not_lt_zero _)

theorem WellFormed.push {data : ClassData} (h : g.WellFormed)
    (hs : ∀ s ∈ data.superclass, s ∈ g.classes) (hi : ∀ i ∈ data.interfaces, i ∈ g.classes)
    (hn : g.lookup data.name = none) :
    WellFormed { g with classes := g.classes.push data } := by
  have hmem : ∀ c ∈ g.classes, c ∈ g.classes.push data := fun c hc => Table.mem_push.2 (Or.inl hc)
  have hobject := cls_push_of_mem data h.object_mem
  refine ⟨hmem _ h.object_mem, hobject ▸ h.object_name, hobject ▸ h.object_superclass,
    hobject ▸ h.object_isInterface, ?_, ?_, ?_, ?_⟩
  -- the superclass of the new class was there before, so its number is smaller
  · intro c s hcs
    rw [cls_push] at hcs
    split at hcs
    · rename_i hc
      rw [hc]
      exact hs s hcs
    · exact h.superclass_lt c s hcs
  · intro c i hci
    rw [cls_push] at hci
    split at hci
    · exact hmem i (hi i hci)
    · exact hmem i (h.interfaces_mem c i hci)
  -- two classes of one name: both old, one of them new, or both new
  · intro c hc d hd hcd
    rw [cls_push, cls_push] at hcd
    rcases Table.mem_push.1 hc with hc' | rfl <;> rcases Table.mem_push.1 hd with hd' | rfl
    · have hcn : c ≠ g.classes.next := fun hcn => Table.next_notMem _ (hcn ▸ hc')
      have hdn : d ≠ g.classes.next := fun hdn => Table.next_notMem _ (hdn ▸ hd')
      rw [if_neg hcn, if_neg hdn] at hcd
      exact h.name_inj c hc' d hd' hcd
    · rw [if_neg (fun hcn => Table.next_notMem _ (hcn ▸ hc')), if_pos rfl] at hcd
      exact absurd hcd (lookup_eq_none hn hc')
    · rw [if_pos rfl, if_neg (fun hdn => Table.next_notMem _ (hdn ▸ hd'))] at hcd
      exact absurd hcd.symm (lookup_eq_none hn hd')
    · rfl
  · intro m hm
    exact (h.methods_known m hm).mono hmem

/-- A step that keeps the classes there, with their names, flags and superclasses, and mentions
nothing new. -/
theorem WellFormed.update (h : g.WellFormed) (hmem : ∀ c, c ∈ g'.classes ↔ c ∈ g.classes)
    (hname : ∀ c, (g'.cls c).name = (g.cls c).name)
    (hflags : ∀ c, (g'.cls c).flags = (g.cls c).flags)
    (hsuper : ∀ c, (g'.cls c).superclass = (g.cls c).superclass)
    (hinterfaces : ∀ c, ∀ i ∈ (g'.cls c).interfaces, i ∈ g.classes)
    (hmethods : ∀ m ∈ g'.methods, g.KnowsMethod (g'.method m)) : g'.WellFormed := by
  refine ⟨(hmem _).2 h.object_mem, (hname _).trans h.object_name,
    (hsuper _).trans h.object_superclass, ?_, ?_, ?_, ?_, ?_⟩
  · rw [ClassData.isInterface, hflags]
    exact h.object_isInterface
  · intro c s hs
    rw [hsuper] at hs
    exact h.superclass_lt c s hs
  · intro c i hi
    exact (hmem i).2 (hinterfaces c i hi)
  · intro c hc d hd hcd
    rw [hname, hname] at hcd
    exact h.name_inj c ((hmem c).1 hc) d ((hmem d).1 hd) hcd
  · intro m hm
    exact (hmethods m hm).mono fun c hc => (hmem c).2 hc

theorem WellFormed.addInterface (h : g.WellFormed) (hi : i ∈ g.classes) :
    (g.addInterface c i).WellFormed := by
  refine h.update (fun d => mem_addInterface) (fun d => ?_) (fun d => ?_) (fun d => ?_)
    (fun d j hj => ?_) h.methods_known
  · rw [cls_addInterface]
    split <;> rfl
  · rw [cls_addInterface]
    split <;> rfl
  · rw [cls_addInterface]
    split <;> rfl
  · rw [cls_addInterface] at hj
    split at hj
    · rcases List.mem_append.1 hj with hj | hj
      · exact h.interfaces_mem d j hj
      · rw [List.mem_singleton.1 hj]
        exact hi
    · exact h.interfaces_mem d j hj

theorem WellFormed.addMethod {m : MethodData} (h : g.WellFormed) (hm : g.KnowsMethod m) :
    (g.addMethod m).2.WellFormed := by
  refine h.update (fun d => mem_addMethod) (fun d => ?_) (fun d => ?_) (fun d => ?_)
    (fun d j hj => ?_) fun k hk => ?_
  · obtain ⟨methods, hd⟩ := cls_addMethod g m d
    rw [hd]
  · obtain ⟨methods, hd⟩ := cls_addMethod g m d
    rw [hd]
  · obtain ⟨methods, hd⟩ := cls_addMethod g m d
    rw [hd]
  · obtain ⟨methods, hd⟩ := cls_addMethod g m d
    rw [hd] at hj
    exact h.interfaces_mem d j hj
  · rcases method_addMethod hk with ⟨hk, he⟩ | he
    · rw [he]
      exact h.methods_known k hk
    · rw [he]
      exact hm

theorem Grown.wellFormed (h : g.Grown) : g.WellFormed := by
  induction h with
  | initial => exact wellFormed_initial
  | addClass _ hs hi hadd ih =>
    obtain ⟨-, rfl, hn⟩ := addClass_ok hadd
    exact ih.push hs hi hn
  | addInterface _ _ hi ih => exact ih.addInterface hi
  | addMethod _ hm ih => exact ih.addMethod hm

/-! ### Consequences -/

theorem WellFormed.superclass?_eq (h : g.WellFormed) (c : ClassId) :
    g.superclass? c = (g.cls c).superclass := by
  unfold superclass?
  cases hs : (g.cls c).superclass with
  | none => rfl
  | some s => simp [h.superclass_lt c s (by rw [hs]; rfl)]

theorem WellFormed.superclass_mem (h : g.WellFormed) {s : ClassId} (hs : s ∈ (g.cls c).superclass) :
    s ∈ g.classes := by
  by_cases hc : c ∈ g.classes
  · exact Nat.lt_trans (h.superclass_lt c s hs) hc
  · rw [cls_of_notMem hc] at hs
    exact absurd hs (by simp [ClassData.object])

/-- Only `java/lang/Object` has its name. -/
theorem WellFormed.eq_object (h : g.WellFormed) (hc : c ∈ g.classes)
    (hn : (g.cls c).name = .object) : c = object :=
  h.name_inj c hc object h.object_mem (hn.trans h.object_name.symm)

/-! ### The platform -/

/-- The hierarchy of the platform alone. -/
def platform : Hierarchy := initial.addPlatform.1

theorem mem_of_resolve {name : BinaryName} (h : g.resolve name = .ok c) : c ∈ g.classes := by
  unfold resolve at h
  split at h
  · rename_i hl
    simp only [Except.ok.injEq] at h
    subst h
    exact Table.mem_indices.1 (List.mem_of_find?_eq_some hl)
  · simp at h

theorem mem_of_mapM_resolve {names : List BinaryName} {cs : List ClassId}
    (h : names.mapM g.resolve = .ok cs) :
    ∀ c ∈ cs, c ∈ g.classes := by
  induction names generalizing cs with
  | nil =>
    simp only [List.mapM_nil, pure, Except.pure, Except.ok.injEq] at h
    simp [← h]
  | cons name names ih =>
    simp only [List.mapM_cons, bind, Except.bind, pure, Except.pure] at h
    split at h
    · simp at h
    · rename_i d hd
      split at h
      · simp at h
      · rename_i ds hds
        simp only [Except.ok.injEq] at h
        subst h
        intro c hc
        rcases List.mem_cons.1 hc with rfl | hc
        · exact mem_of_resolve hd
        · exact ih hds c hc

/-- A class of the platform is added as any other class, after what it mentions has been found. -/
theorem addPlatformClass_ok {p : PlatformClass} (h : g.addPlatformClass p = .ok g') :
    ∃ s is c, g.resolve p.superclass = .ok s ∧ p.interfaces.mapM g.resolve = .ok is ∧
      g.addClass ⟨p.name, some s, is, .ofList p.flags, []⟩ = .ok (c, g') := by
  unfold addPlatformClass at h
  obtain ⟨s, hs, h⟩ := bind_eq_ok h
  obtain ⟨is, his, h⟩ := bind_eq_ok h
  obtain ⟨⟨c, g''⟩, hadded, h⟩ := bind_eq_ok h
  obtain rfl := Except.ok.inj h
  exact ⟨s, is, c, hs, his, hadded⟩

theorem Grown.addPlatformClass {p : PlatformClass} (h : g.Grown)
    (hp : g.addPlatformClass p = .ok g') : g'.Grown := by
  obtain ⟨s, is, c, hs, his, hadded⟩ := addPlatformClass_ok hp
  refine h.addClass ?_ (mem_of_mapM_resolve his) hadded
  intro s' hs'
  rw [← Option.some.inj hs']
  exact mem_of_resolve hs

theorem Grown.addPlatform (h : g.Grown) : g.addPlatform.1.Grown := by
  refine attemptAll_preserves (fun g p hg => ?_) PlatformClass.all h
  unfold tryPlatformClass
  split
  · rename_i hp
    exact hg.addPlatformClass hp
  · exact hg

end Hierarchy

end JvmLowering
