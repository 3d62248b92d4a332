import JvmLowering.Proofs.Hierarchy.Reachability

/-!
# Assignability is an order

Some answers of assignability go by what is reached from a class, some by numbers of dimensions, and
some by the names of three classes alone. In a standard hierarchy they fit together all the same:
assignability is a preorder, in which arrays are ordered as their elements are, and two types that
are assignable to each other are equal unless interfaces lie above each other in a circle. It is the
least such preorder: nothing is assignable that the rules of subtyping do not ask for.

* `Lists`, `InterfacesAcyclic`: edges from classes to interfaces, and that they form no circle;
* `Subtypes`: the rules of subtyping;
* `isAssignable_arrayOf`: assignability is covariant;
* `Standard.isSubclass_antisymm`: classes that are below each other are equal;
* `isAssignable_preorder`: all of it.
-/

namespace JvmLowering.Hierarchy

variable {g : Hierarchy} {a b c d : ClassId} {r s t : RefType ClassId} {m n : Nat}
  {e : Element ClassId}

/-! ### Arrays -/

/-- **Assignability is covariant.** This needs no convention. -/
theorem isAssignable_arrayOf (g : Hierarchy) (r s : RefType ClassId) :
    g.isAssignable (FieldType.ref r).arrayOf (FieldType.ref s).arrayOf = g.isAssignable r s := by
  rcases r with a | ⟨m, a | a⟩ <;> rcases s with
    b | ⟨n, b | b⟩ <;> simp [FieldType.arrayOf, isAssignable]

/-! ### Circles of interfaces -/

/-- A class lists another one as its interface. -/
def Lists (g : Hierarchy) (c d : ClassId) : Prop := d ∈ (g.cls c).interfaces

/-- No class is reached from itself over interfaces. -/
def InterfacesAcyclic (g : Hierarchy) : Prop := ∀ c, ¬ Relation.TransGen g.Lists c c

/-- Interfaces that are older than what lists them form no circle. -/
theorem interfacesAcyclic_of_older
    (h : ∀ c ∈ g.classes, ∀ d ∈ (g.cls c).interfaces, d.num < c.num) : g.InterfacesAcyclic := by
  have hstep : ∀ c d, g.Lists c d → d.num < c.num := by
    intro c d hd
    by_cases hc : c ∈ g.classes
    · exact h c hc d hd
    · rw [Lists, cls_of_notMem hc] at hd
      exact absurd hd List.not_mem_nil
  have hpath : ∀ c d, Relation.TransGen g.Lists c d → d.num < c.num := by
    intro c d hd
    induction hd with
    | single hd => exact hstep _ _ hd
    | tail _ hd ih => exact Nat.lt_trans (hstep _ _ hd) ih
  exact fun c hc => Nat.lt_irrefl _ (hpath c c hc)

/-! ### Classes below each other -/

section Standard

variable (hs : g.Standard) (hw : g.WellFormed)

include hs hw

theorem Standard.eq_object_of_reaches (h : g.Reaches true object d) : d = object := by
  induction h with
  | refl => rfl
  | tail _ hd ih =>
    rw [ih] at hd
    simp [parents, hw.object_superclass, hs.object_interfaces] at hd

/-- From an interface only interfaces are reached, over interfaces alone, and `java/lang/Object`. -/
theorem Standard.reaches_of_interface (hc : c ∈ g.classes) (hi : (g.cls c).isInterface = true)
    (h : g.Reaches true c d) :
    d = object ∨ (g.cls d).isInterface = true ∧ Relation.ReflTransGen g.Lists c d := by
  induction h with
  | refl => exact Or.inr ⟨hi, .refl⟩
  | @tail b d hb hd ih =>
    rcases ih with rfl | ⟨hbi, hpath⟩
    · exact Or.inl (hs.eq_object_of_reaches hw (.single hd))
    · have hbg := hw.mem_of_reaches hc hb
      rcases mem_parents_true.1 hd with hsuper | hlisted
      · rw [hs.interface_superclass b hbg hbi] at hsuper
        exact Or.inl (Option.some.inj hsuper).symm
      · exact Or.inr ⟨hs.interfaces b hbg d hlisted, hpath.tail hlisted⟩

theorem Standard.eq_of_reaches_interface (hacyclic : g.InterfacesAcyclic) (ha : a ∈ g.classes)
    (hi : (g.cls a).isInterface = true) (hab : g.Reaches true a b) (hba : g.Reaches true b a) :
    a = b := by
  rcases hs.reaches_of_interface hw ha hi hab with rfl | ⟨hbi, hpath⟩
  · exact hs.eq_object_of_reaches hw hba
  · rcases hs.reaches_of_interface hw (hw.mem_of_reaches ha hab) hbi hba with rfl | ⟨-, hback⟩
    · rw [hw.object_isInterface] at hi
      exact Bool.noConfusion hi
    · rcases Relation.reflTransGen_iff_eq_or_transGen.1 hpath with rfl | hcycle
      · rfl
      · exact absurd (hcycle.trans_left hback) (hacyclic a)

theorem Standard.isSubclass_antisymm (hacyclic : g.InterfacesAcyclic)
    (hab : g.isSubclass a b = true) (hba : g.isSubclass b a = true) : a = b := by
  obtain ⟨ha, hreach⟩ := hw.isSubclass_iff.1 hab
  obtain ⟨hb, hback⟩ := hw.isSubclass_iff.1 hba
  cases hai : (g.cls a).isInterface with
  | true => exact hs.eq_of_reaches_interface hw hacyclic ha hai hreach.mono hback.mono
  | false =>
    cases hbi : (g.cls b).isInterface with
    | true => exact (hs.eq_of_reaches_interface hw hacyclic hb hbi hback.mono hreach.mono).symm
    | false => exact (hw.classLE_of_isSubclass hbi hab).antisymm (hw.classLE_of_isSubclass hai hba)

/-- No class is below an array, and arrays have different numbers of dimensions only one way
round. -/
theorem Standard.isAssignable_antisymm (hacyclic : g.InterfacesAcyclic)
    (h : g.isAssignable r s = true) (h' : g.isAssignable s r = true) : r = s := by
  rcases r with a | ⟨m, a | a⟩
  · rcases s with b | ⟨n, b⟩
    · rw [hs.isSubclass_antisymm hw hacyclic h h']
    · simp [isAssignable] at h
  · rcases s with b | ⟨n, b | b⟩
    · simp [isAssignable] at h'
    · simp only [isAssignable, Bool.and_eq_true, decide_eq_true_eq] at h
      rw [h.1, h.2]
    · simp [isAssignable] at h'
  · rcases s with b | ⟨n, b | b⟩
    · simp [isAssignable] at h'
    · simp [isAssignable] at h
    · simp only [isAssignable] at h h'
      by_cases hmn : m = n
      · subst hmn
        simp only [if_true] at h h'
        rw [hs.isSubclass_antisymm hw hacyclic h h']
      · simp only [hmn, Ne.symm hmn, if_false, Bool.and_eq_true, decide_eq_true_eq] at h h'
        exact absurd h.1 (Nat.lt_asymm h'.1)

end Standard

/-! ### The rules of subtyping -/

/-- What has to be a subtype of what: a class of its superclass and its interfaces, an array of the
classes above arrays, and an array of another one if its elements are. -/
inductive Subtypes (g : Hierarchy) : RefType ClassId → RefType ClassId → Prop
  | refl {r : RefType ClassId} (known : g.Knows r) : Subtypes g r r
  | trans {r s t : RefType ClassId} (lower : Subtypes g r s) (upper : Subtypes g s t) :
      Subtypes g r t
  | parent {c d : ClassId} (above : d ∈ (g.cls c).superclass ∨ d ∈ (g.cls c).interfaces) :
      Subtypes g (.object c) (.object d)
  | array {n : Nat} {e : Element ClassId} {c : ClassId} (above : g.isAboveArrays c = true) :
      Subtypes g (.array n e) (.object c)
  | covariant {r s : RefType ClassId} (elements : Subtypes g r s) :
      Subtypes g (FieldType.ref r).arrayOf (FieldType.ref s).arrayOf

namespace Subtypes

theorem of_reaches (ha : a ∈ g.classes) (h : g.Reaches true a b) :
    g.Subtypes (.object a) (.object b) := by
  induction h with
  | refl => exact .refl (knows_object.2 ha)
  | tail _ hd ih => exact ih.trans (.parent (mem_parents_true.1 hd))

/-- Dimensions can be put on both sides. -/
theorem array_of_object (h : g.Subtypes (.object a) (.object b)) (n : Nat) :
    g.Subtypes (.array n (.cls a)) (.array n (.cls b)) := by
  induction n with
  | zero => exact .covariant h
  | succ n ih => exact .covariant ih

/-- An array with more dimensions is an array of arrays, and these are objects. -/
theorem array_of_lt (hnm : n < m) (hb : g.isAboveArrays b = true) :
    g.Subtypes (.array m e) (.array n (.cls b)) := by
  obtain ⟨m, rfl⟩ := Nat.exists_eq_add_one_of_ne_zero (Nat.ne_zero_of_lt hnm)
  induction n generalizing m with
  | zero => exact .covariant (.array hb)
  | succ n ih =>
    obtain ⟨m, rfl⟩ :=
      Nat.exists_eq_add_one_of_ne_zero (Nat.ne_zero_of_lt (Nat.lt_of_succ_lt_succ hnm))
    exact .covariant (ih m (Nat.lt_of_succ_lt_succ hnm))

/-- Whatever is assignable has to be. -/
theorem of_isAssignable (hw : g.WellFormed) (h : g.isAssignable r s = true) : g.Subtypes r s := by
  have hclasses : ∀ {a b}, g.isSubclass a b = true → g.Subtypes (.object a) (.object b) :=
    fun hab => of_reaches (mem_of_isSubclass hab) (hw.isSubclass_iff.1 hab).2.mono
  -- a class, an array of numbers, an array of objects
  rcases r with a | ⟨m, a | a⟩
  · rcases s with b | ⟨n, b⟩
    · exact hclasses h
    · simp [isAssignable] at h
  · rcases s with b | ⟨n, b | b⟩
    · exact .array h
    · simp only [isAssignable, Bool.and_eq_true, decide_eq_true_eq] at h
      rw [h.1, h.2]
      exact .refl knows_array_base
    · simp only [isAssignable, Bool.and_eq_true, decide_eq_true_eq] at h
      exact array_of_lt h.1 h.2
  · rcases s with b | ⟨n, b | b⟩
    · exact .array h
    · simp [isAssignable] at h
    · simp only [isAssignable] at h
      split at h
      · rename_i hmn
        rw [hmn]
        exact array_of_object (hclasses h) n
      · simp only [Bool.and_eq_true, decide_eq_true_eq] at h
        exact array_of_lt h.1 h.2

end Subtypes

theorem mem_of_parent (h : d ∈ g.parents true c) : c ∈ g.classes := by
  by_contra hc
  rw [parents, cls_of_notMem hc] at h
  simp [ClassData.object] at h

theorem Rooted.isSubclass_of_parent (hr : g.Rooted) (hw : g.WellFormed) (h : d ∈ g.parents true c) :
    g.isSubclass c d = true := by
  have hc := mem_of_parent h
  refine hw.isSubclass_iff.2 ⟨hc, ?_⟩
  cases hd : (g.cls d).isInterface with
  | true => exact .single h
  | false => exact hr.reaches_false_of_reaches_true hw hc hd (.single h)

/-- Assignability keeps all rules. -/
theorem Standard.isAssignable_of_subtypes (hs : g.Standard) (hw : g.WellFormed)
    (h : g.Subtypes r s) :
    g.isAssignable r s = true := by
  induction h with
  | refl known => exact hw.isAssignable_refl known
  | trans _ _ lower upper => exact hs.isAssignable_trans hw lower upper
  | parent above => exact hs.isSubclass_of_parent hw (mem_parents_true.2 above)
  | array above => exact above
  | covariant _ elements => exact (g.isAssignable_arrayOf _ _).trans elements

/-- **Assignability is a preorder.** In a standard hierarchy it is reflexive and transitive, it is
antisymmetric unless interfaces form a circle, it orders arrays as it orders their elements, and it
is what the rules of subtyping ask for. -/
theorem isAssignable_preorder (hg : g.Grown) (hs : g.Standard) :
    (∀ r, g.Knows r → g.isAssignable r r = true) ∧
    (∀ r s t, g.isAssignable r s = true → g.isAssignable s t = true → g.isAssignable r t = true) ∧
    (g.InterfacesAcyclic → ∀ r s, g.isAssignable r s = true → g.isAssignable s r = true → r = s) ∧
    (∀ r s, g.isAssignable r s = true ↔
      g.isAssignable (FieldType.ref r).arrayOf (FieldType.ref s).arrayOf = true) ∧
    ∀ r s, g.isAssignable r s = true ↔ g.Subtypes r s := by
  have hw := hg.wellFormed
  refine ⟨fun r hr => hw.isAssignable_refl hr, fun r s t => hs.isAssignable_trans hw,
    fun hacyclic r s => hs.isAssignable_antisymm hw hacyclic, fun r s => ?_,
    fun r s => ⟨.of_isAssignable hw, ?_⟩⟩
  · rw [isAssignable_arrayOf]
  · exact hs.isAssignable_of_subtypes hw

/-- The platform with two of its interfaces above each other. -/
def entangled : Hierarchy := (platform.addInterface ⟨3⟩ ⟨4⟩).addInterface ⟨4⟩ ⟨3⟩

/-- On the platform, arrays of arrays of integers are arrays of what can be serialized, by way of
arrays of arrays of numbers, and not the other way round. Where two interfaces lie above each other,
both are assignable to the other one. -/
theorem isAssignable_preorder_numbers :
    platform.Standard ∧ platform.InterfacesAcyclic ∧
      platform.isAssignable (.array 1 (.cls ⟨8⟩)) (.array 0 (.cls ⟨1⟩)) = true ∧
      platform.isAssignable (.array 0 (.cls ⟨1⟩)) (.array 1 (.cls ⟨8⟩)) ≠ true ∧
      entangled.Standard ∧ entangled.isAssignable (.array 0 (.cls ⟨3⟩))
        (.array 0 (.cls ⟨4⟩)) = true ∧
      entangled.isAssignable (.array 0 (.cls ⟨4⟩)) (.array 0 (.cls ⟨3⟩)) = true ∧
        ¬ entangled.InterfacesAcyclic := by
  have hs : platform.Standard := by decide +kernel
  have holder : ∀ c ∈ platform.classes.indices, ∀ d ∈ (platform.cls c).interfaces,
    d.num < c.num := by decide +kernel
  have hacyclic := interfacesAcyclic_of_older fun c hc => holder c (Table.mem_indices.2 hc)
  have hnumbers : platform.isAssignable (.array 1 (.cls ⟨8⟩)) (.array 1 (.cls ⟨7⟩)) = true ∧
      platform.isAssignable (.array 1 (.cls ⟨7⟩)) (.array 0 (.cls ⟨1⟩)) = true := by decide +kernel
  have hsize : platform.classes.size = 14 := by decide +kernel
  have hmem : ∀ n < 14, (⟨n⟩ : ClassId) ∈ platform.classes :=
    fun n hn => Table.mem_def.2 (Nat.lt_of_lt_of_eq hn hsize.symm)
  have hgrown : (platform.addInterface ⟨3⟩ ⟨4⟩).Grown :=
    Grown.initial.addPlatform.addInterface (hmem 3 (by decide)) (hmem 4 (by decide))
  have hgrown' : entangled.Grown :=
    hgrown.addInterface (mem_addInterface.2 (hmem 4 (by decide)))
      (mem_addInterface.2 (hmem 3 (by decide)))
  have hs' : entangled.Standard := by decide +kernel
  have hboth : entangled.isAssignable (.object ⟨3⟩) (.object ⟨4⟩) = true ∧
      entangled.isAssignable (.object ⟨4⟩) (.object ⟨3⟩) = true := by decide +kernel
  obtain ⟨-, htrans, hantisymm, -, -⟩ := isAssignable_preorder Grown.initial.addPlatform hs
  obtain ⟨-, -, hantisymm', hcovariant, -⟩ := isAssignable_preorder hgrown' hs'
  have hup := htrans _ _ _ hnumbers.1 hnumbers.2
  refine ⟨hs, hacyclic, hup, fun hdown => ?_, hs', (hcovariant _ _).1 hboth.1,
    (hcovariant _ _).1 hboth.2, fun hacyclic' => ?_⟩
  · exact absurd (hantisymm hacyclic _ _ hup hdown) (by simp)
  · exact absurd (hantisymm' hacyclic' _ _ hboth.1 hboth.2) (by decide)

end JvmLowering.Hierarchy
