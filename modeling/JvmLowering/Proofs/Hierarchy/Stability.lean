import JvmLowering.Proofs.Hierarchy.Assignability
import JvmLowering.Proofs.Hierarchy.Calls

/-!
# Answers that stay

What is asked about classes that are there goes by their superclasses, by their interfaces or by
their names. Calls that add classes and methods change none of these, so they change no answer. An
interface that is added to a class can make a search find more, but least upper bounds and joins do
not go by interfaces.

* `Extends.leastUpperBound_eq`, `Extends.join_eq`: answers that go by superclasses stay;
* `Extends.isSubclass`, `Extends.isAssignable`: what was found stays found;
* `Preserves`: interfaces have not changed either;
* `applyAll_answers`: the statement for all sequences of calls.
-/

namespace JvmLowering

open Hierarchy

variable {g g' g'' : Hierarchy} {a b c d : ClassId} {r s : RefType ClassId}

/-- The class that a flow type mentions is there. -/
def FlowType.Over (g : Hierarchy) (t : FlowType) : Prop := ∀ r ∈ t.refType?, g.Knows r

namespace Hierarchy

/-! ### Superclasses -/

section Superclasses

variable (h : g.Extends g') (hw : g.WellFormed)

include h

theorem Extends.superclass?_eq (hc : c ∈ g.classes) : g'.superclass? c = g.superclass? c := by
  rw [superclass?, h.superclass c hc, superclass?]

include hw

theorem Extends.ancestors_eq (hc : c ∈ g.classes) : g'.ancestors c = g.ancestors c := by
  induction c using ancestry_induction g with
  | root c hs => rw [ancestors_of_none hs, ancestors_of_none ((h.superclass?_eq hc).trans hs)]
  | below c s hs ih =>
    have hsuper : s ∈ (g.cls c).superclass := by rwa [← hw.superclass?_eq]
    rw [ancestors_of_some hs, ancestors_of_some ((h.superclass?_eq hc).trans hs),
      ih (hw.superclass_mem hsuper)]

theorem Extends.leastUpperBound_eq (ha : a ∈ g.classes) (hb : b ∈ g.classes) :
    g'.leastUpperBound a b = g.leastUpperBound a b := by
  rw [leastUpperBound, h.ancestors_eq hw ha, h.ancestors_eq hw hb, leastUpperBound]

/-! ### Joins -/

theorem Extends.joinShapes_eq {p q : Nat × ClassId} (hp : p.2 ∈ g.classes) (hq : q.2 ∈ g.classes) :
    g'.joinShapes p q = g.joinShapes p q := by
  obtain ⟨_ | m, a⟩ := p
  · rfl
  · obtain ⟨_ | n, b⟩ := q
    · rfl
    · rw [joinShapes, h.leastUpperBound_eq hw hp hq, joinShapes]

omit h in
theorem WellFormed.arrayShape_mem {n : Nat} {e : Element ClassId} (hk : g.Knows (.array n e)) :
    (arrayShape n e).2 ∈ g.classes := by
  cases e with
  | base b => exact hw.object_mem
  | cls c => exact knows_array_cls.1 hk

theorem Extends.joinRef_eq (hr : g.Knows r) (hs : g.Knows s) : g'.joinRef r s = g.joinRef r s := by
  rcases r with a | ⟨m, a⟩
  · rcases s with b | ⟨n, b⟩
    · rw [joinRef, h.leastUpperBound_eq hw (knows_object.1 hr) (knows_object.1 hs), joinRef]
    · rfl
  · rcases s with b | ⟨n, b⟩
    · rfl
    · rw [joinRef, h.joinShapes_eq hw (hw.arrayShape_mem hr) (hw.arrayShape_mem hs), joinRef]

theorem Extends.join_eq {s t : FlowType} (hs : s.Over g) (ht : t.Over g) :
    FlowType.join g' s t = FlowType.join g s t := by
  rcases s with _ | _ | _ | x | ⟨r, m⟩ <;> rcases t with _ | _ | _ | y | ⟨r', n⟩
  case ref.ref => rw [FlowType.join, h.joinRef_eq hw (hs r rfl) (ht r' rfl), FlowType.join]
  all_goals rfl

theorem Extends.le_eq {s t : FlowType} (hs : s.Over g) (ht : t.Over g) :
    FlowType.le g' s t = FlowType.le g s t := by
  rw [FlowType.le, h.join_eq hw hs ht, FlowType.le]

end Superclasses

/-! ### Searches -/

section Searches

theorem Extends.isInterface_eq (h : g.Extends g') (hb : b ∈ g.classes) :
    (g'.cls b).isInterface = (g.cls b).isInterface := by
  rw [ClassData.isInterface, h.flags b hb, ClassData.isInterface]

theorem Extends.mem_parents {w : Bool} (h : g.Extends g') (hc : c ∈ g.classes)
    (hd : d ∈ g.parents w c) : d ∈ g'.parents w c := by
  rw [parents, h.superclass c hc]
  refine (List.mem_append.1 hd).elim (List.mem_append_left _) fun hd => List.mem_append_right _ ?_
  cases w with
  | true => exact (h.interfaces c hc).subset hd
  | false => exact hd

/-- What is reached is found, also among more classes. -/
theorem Extends.mem_supertypes {w : Bool} (h : g.Extends g') (hw : g.WellFormed)
    (ha : a ∈ g.classes) (hr : g.Reaches w a d) :
    d ∈ g'.supertypes w a := by
  induction hr with
  | refl => exact self_mem_supertypes (h.mem_classes a ha)
  | tail hr hd ih =>
    have hb := hw.mem_of_reaches ha hr
    exact mem_supertypes_of_parent ih (h.mem_parents hb hd) (h.mem_classes _ (hw.parents_mem hd))

theorem Extends.isSubclass (h : g.Extends g') (hw : g.WellFormed) (hs : g.isSubclass a b = true) :
    g'.isSubclass a b = true := by
  obtain ⟨ha, hr⟩ := hw.isSubclass_iff.1 hs
  have hb := hw.mem_of_reaches ha hr
  rw [Hierarchy.isSubclass, h.isInterface_eq hb]
  exact decide_eq_true (h.mem_supertypes hw ha hr)

theorem Extends.isAboveArrays_eq (h : g.Extends g') (hb : b ∈ g.classes) :
    g'.isAboveArrays b = g.isAboveArrays b := by
  simp only [isAboveArrays, h.name b hb]

/-- Assignability hangs on the classes that are mentioned alone. -/
theorem isAssignable_imp
    (hsub : ∀ a ∈ r.class?, ∀ b ∈ s.class?, g.isSubclass a b = true → g'.isSubclass a b = true)
    (habove : ∀ b ∈ s.class?, g.isAboveArrays b = true → g'.isAboveArrays b = true)
    (h : g.isAssignable r s = true) :
    g'.isAssignable r s = true := by
  -- a class, an array of numbers, an array of objects
  rcases r with a | ⟨m, a | a⟩
  · rcases s with b | ⟨n, b⟩
    · exact hsub a rfl b rfl h
    · exact h
  · rcases s with b | ⟨n, b | b⟩
    · exact habove b rfl h
    · exact h
    · simp only [isAssignable, Bool.and_eq_true] at h ⊢
      exact ⟨h.1, habove b rfl h.2⟩
  · rcases s with b | ⟨n, b | b⟩
    · exact habove b rfl h
    · exact h
    · simp only [isAssignable] at h ⊢
      split at h
      · rename_i hmn
        rw [if_pos hmn]
        exact hsub a rfl b rfl h
      · rename_i hmn
        rw [if_neg hmn]
        rw [Bool.and_eq_true] at h ⊢
        exact ⟨h.1, habove b rfl h.2⟩

theorem Extends.isAssignable (h : g.Extends g') (hw : g.WellFormed) (hs : g.Knows s)
    (hrs : g.isAssignable r s = true) :
    g'.isAssignable r s = true :=
  isAssignable_imp (fun _ _ _ _ => h.isSubclass hw)
    (fun b hb hab => (h.isAboveArrays_eq (hs b hb)).trans hab) hrs

end Searches

/-! ### Calls that add no interface to a class -/

/-- The second hierarchy has all that the first one has, and no further interfaces of its
classes. -/
structure Preserves (g g' : Hierarchy) : Prop extends Extends g g' where
  interfaces_eq : ∀ c ∈ g.classes, (g'.cls c).interfaces = (g.cls c).interfaces

namespace Preserves

theorem refl (g : Hierarchy) : g.Preserves g := ⟨.refl g, fun _ _ => rfl⟩

theorem trans (h : g.Preserves g') (h' : g'.Preserves g'') : g.Preserves g'' :=
  ⟨h.toExtends.trans h'.toExtends, fun c hc => (h'.interfaces_eq c (h.mem_classes c hc)).trans
    (h.interfaces_eq c hc)⟩

theorem push (g : Hierarchy) (data : ClassData) :
    g.Preserves { g with classes := g.classes.push data } :=
  ⟨g.extends_push data, fun c hc => by rw [cls_push_of_mem data hc]⟩

theorem addMethod (g : Hierarchy) (m : MethodData) : g.Preserves (g.addMethod m).2 := by
  refine ⟨g.extends_addMethod m, fun c _ => ?_⟩
  obtain ⟨methods, hc⟩ := cls_addMethod g m c
  rw [hc]

theorem addPlatform (g : Hierarchy) : g.Preserves g.addPlatform.1 := by
  refine attemptAll_preserves (fun g' p hg => hg.trans ?_) PlatformClass.all (.refl g)
  unfold tryPlatformClass
  split
  · rename_i hp
    obtain ⟨-, s, is, -, -, rfl⟩ := addPlatformClass_eq_push hp
    exact .push g' _
  · exact .refl g'

/-- The same classes are found. -/
theorem reaches {w : Bool} (h : g.Preserves g') (hw : g.WellFormed) (ha : a ∈ g.classes)
    (hd : d ∈ g'.supertypes w a) :
    g.Reaches w a d := by
  have hparents : ∀ c ∈ g.classes, g'.parents w c = g.parents w c := fun c hc => by
    rw [parents, h.superclass c hc, h.interfaces_eq c hc, parents]
  rcases mem_search hd with hd | ⟨p, hp, hr⟩
  · exact absurd hd List.not_mem_nil
  · rw [List.mem_singleton.1 hp] at hr
    clear hd
    induction hr with
    | refl => exact .refl
    | tail _ hstep ih =>
      rw [hparents _ (hw.mem_of_reaches ha ih)] at hstep
      exact ih.tail hstep

theorem isSubclass_eq (h : g.Preserves g') (hw : g.WellFormed) (ha : a ∈ g.classes)
    (hb : b ∈ g.classes) :
    g'.isSubclass a b = g.isSubclass a b := by
  refine Bool.eq_iff_iff.2 ⟨fun hs => ?_, h.toExtends.isSubclass hw⟩
  rw [Hierarchy.isSubclass, h.isInterface_eq hb, decide_eq_true_eq] at hs
  exact hw.isSubclass_iff.2 ⟨ha, h.reaches hw ha hs⟩

theorem isAssignable_eq (h : g.Preserves g') (hw : g.WellFormed) (hr : g.Knows r) (hs : g.Knows s) :
    g'.isAssignable r s = g.isAssignable r s := by
  refine Bool.eq_iff_iff.2 ⟨isAssignable_imp (fun a ha b hb hab => ?_) fun b hb hab => ?_,
    h.toExtends.isAssignable hw hs⟩
  · rwa [h.isSubclass_eq hw (hr a ha) (hs b hb)] at hab
  · rwa [h.isAboveArrays_eq (hs b hb)] at hab

theorem checkCast_eq {t : FlowType} (h : g.Preserves g') (hw : g.WellFormed) (hr : g.Knows r)
    (ht : t.Over g) :
    FlowType.checkCast g' r t = FlowType.checkCast g r t := by
  cases t with
  | ref s nullable =>
    rw [FlowType.checkCast, h.isAssignable_eq hw (ht s rfl) hr, FlowType.checkCast]
  | bottom | top | null | prim b => rfl

end Preserves

/-- The call adds an interface to a class that is there. -/
def Call.addsInterface : Call → Bool
  | addInterface _ _ => true
  | _ => false

theorem Preserves.apply {call : Call} (hcall : call.addsInterface = false) (g : Hierarchy) :
    g.Preserves (call.apply g) := by
  cases call with
  | addClass data =>
    rcases g.addClass_cases data with ⟨-, -, -, happly, -⟩ | ⟨-, -, happly, -⟩
    · rw [happly]
      exact .refl g
    · rw [happly]
      exact .push g data
  | addInterface c i => exact Bool.noConfusion hcall
  | addMethod m => exact .addMethod g m
  | addPlatform => exact .addPlatform g

theorem Preserves.applyAll {calls : List Call} (hcalls : ∀ call ∈ calls, call.addsInterface = false)
    (g : Hierarchy) :
    g.Preserves (g.applyAll calls) := by
  induction calls generalizing g with
  | nil => exact .refl g
  | cons call calls ih =>
    obtain ⟨hcall, hcalls⟩ := List.forall_mem_cons.1 hcalls
    exact (Preserves.apply hcall g).trans (ih hcalls _)

/-! ### All calls -/

/-- **Answers about classes stay as the hierarchy grows.** No calls change a least upper bound, a
join or the order of flow types, and what is a subclass or assignable stays so. Calls that add no
interface to a class change no subclass test, no assignability and no cast either. -/
theorem applyAll_answers (hg : g.Grown) (calls : List Call) :
    let g' := g.applyAll calls
    (∀ a ∈ g.classes, ∀ b ∈ g.classes, g'.leastUpperBound a b = g.leastUpperBound a b ∧
      (g.isSubclass a b = true → g'.isSubclass a b = true)) ∧
    (∀ r s, g.Knows r → g.Knows s → g.isAssignable r s = true → g'.isAssignable r s = true) ∧
    (∀ s t : FlowType, s.Over g → t.Over g →
      FlowType.join g' s t = FlowType.join g s t ∧ FlowType.le g' s t = FlowType.le g s t) ∧
    ((∀ call ∈ calls, call.addsInterface = false) →
      (∀ a ∈ g.classes, ∀ b ∈ g.classes, g'.isSubclass a b = g.isSubclass a b) ∧
      (∀ r s, g.Knows r → g.Knows s → g'.isAssignable r s = g.isAssignable r s) ∧
      ∀ r (t : FlowType), g.Knows r → t.Over g →
      FlowType.checkCast g' r t = FlowType.checkCast g r t) := by
  intro g'
  have hw := hg.wellFormed
  have hext : g.Extends g' := g.extends_applyAll calls
  refine ⟨fun a ha b hb => ⟨hext.leastUpperBound_eq hw ha hb, hext.isSubclass hw⟩,
    fun r s _ hs => hext.isAssignable hw hs,
    fun s t hs ht => ⟨hext.join_eq hw hs ht, hext.le_eq hw hs ht⟩, fun hcalls => ?_⟩
  have hkept : g.Preserves g' := .applyAll hcalls g
  exact ⟨fun a ha b hb => hkept.isSubclass_eq hw ha hb,
    fun r s hr hs => hkept.isAssignable_eq hw hr hs, fun r t hr ht => hkept.checkCast_eq hw hr ht⟩

/-- A class of numbers with a method is added. -/
def ratioAdded : List Call :=
  [.addClass ⟨⟨"Ratio", by decide⟩, some ⟨7⟩, [⟨3⟩], .ofList [ClassFlag.isPublic], []⟩,
    .addMethod ⟨⟨14⟩, .init, ⟨[], none⟩, .ofList []⟩]

/-- Numbers of the platform are not comparable, and stay so when another class of numbers is added
that is. If they become comparable, the least upper bound of two kinds of them is the same as
before. -/
theorem applyAll_answers_ratioAdded :
    platform.isSubclass ⟨7⟩ ⟨3⟩ = false ∧
      (platform.applyAll ratioAdded).isSubclass ⟨7⟩ ⟨3⟩ = false ∧
      (platform.applyAll (ratioAdded ++ [.addInterface ⟨7⟩ ⟨3⟩])).isSubclass ⟨7⟩ ⟨3⟩ = true ∧
      (platform.applyAll
        (ratioAdded ++ [.addInterface ⟨7⟩ ⟨3⟩])).leastUpperBound ⟨8⟩ ⟨9⟩ = ⟨7⟩ := by
  have hmem : (⟨3⟩ : ClassId) ∈ platform.classes ∧ (⟨7⟩ : ClassId) ∈ platform.classes ∧
    (⟨8⟩ : ClassId) ∈ platform.classes ∧ (⟨9⟩ : ClassId) ∈ platform.classes := by decide +kernel
  have hbefore : platform.isSubclass ⟨7⟩ ⟨3⟩ = false ∧ platform.leastUpperBound ⟨8⟩ ⟨9⟩ = ⟨7⟩ := by
    decide +kernel
  obtain ⟨h3, h7, h8, h9⟩ := hmem
  obtain ⟨-, -, -, hkept⟩ := applyAll_answers Grown.initial.addPlatform ratioAdded
  obtain ⟨hbounds, -⟩ :=
    applyAll_answers Grown.initial.addPlatform (ratioAdded ++ [.addInterface ⟨7⟩ ⟨3⟩])
  have hnone : ∀ call ∈ ratioAdded, call.addsInterface = false := by
    simp [ratioAdded, Call.addsInterface]
  refine ⟨hbefore.1, ((hkept hnone).1 _ h7 _ h3).trans hbefore.1, by decide +kernel,
    ((hbounds _ h8 _ h9).1).trans hbefore.2⟩

end Hierarchy

end JvmLowering
