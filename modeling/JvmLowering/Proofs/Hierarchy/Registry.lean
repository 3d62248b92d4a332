import JvmLowering.Proofs.Hierarchy.Calls
import Mathlib.Data.List.Pairwise

/-!
# Consistent hierarchies

A class is looked up by its name but is the same class by its index, and its methods are listed in
the class but kept beside it. All of this stays in step whatever calls come.

* `Consistent`: what holds after calls that name only what is there;
* `MethodAdded`: what adding a method gives;
* `PlatformAdded`, `AddedUpToDuplicate`: what adding the platform changes, up to the first class of
  it that is there already;
* `applyAll_consistent`: the statement for all sequences of calls.
-/

namespace JvmLowering

theorem MethodData.sameKey_iff {m n : MethodData} :
    m.sameKey n = true ↔ m.name = n.name ∧ m.type = n.type ∧ m.isStatic = n.isStatic := by
  simp [sameKey, and_assoc]

theorem MethodData.sameKey_comm (m n : MethodData) : m.sameKey n = n.sameKey m := by
  simp only [sameKey, eq_comm]

theorem MethodData.sameKey_of_sameKey {m n o : MethodData} (h : m.sameKey o = true)
    (h' : n.sameKey o = true) :
    m.sameKey n = true := by
  obtain ⟨hname, htype, hstatic⟩ := sameKey_iff.1 h
  obtain ⟨hname', htype', hstatic'⟩ := sameKey_iff.1 h'
  exact sameKey_iff.2 ⟨hname.trans hname'.symm, htype.trans htype'.symm,
    hstatic.trans hstatic'.symm⟩

namespace Hierarchy

variable {g g' g'' : Hierarchy} {c i : ClassId} {k : MethodId} {m : MethodData} {data : ClassData}
  {name : BinaryName} {p : PlatformClass} {ps : List PlatformClass}

/-! ### What holds of all hierarchies -/

/-- The same classes without methods. -/
def withoutMethods (g : Hierarchy) : Hierarchy := { g with methods := {} }

/-- Classes have names of their own and older superclasses, and each lists methods of its own, which
differ in their keys. -/
structure Consistent (g : Hierarchy) : Prop where
  /-- The classes are well formed, whatever their methods mention. -/
  classes : g.withoutMethods.WellFormed
  listed : ∀ c, ∀ k ∈ (g.cls c).methods, k ∈ g.methods ∧ (g.method k).owner = c
  keys : ∀ c, (g.cls c).methods.Pairwise fun k l => (g.method k).sameKey (g.method l) = false

theorem cls_initial (c : ClassId) : initial.cls c = .object := by
  refine (Table.get_push _ _ c).trans ?_
  split
  · rfl
  · exact Table.get_of_notMem (Nat.not_lt_zero _)

theorem consistent_initial : initial.Consistent := by
  refine ⟨wellFormed_initial, fun c k hk => ?_, fun c => ?_⟩
  · rw [cls_initial] at hk
    exact absurd hk List.not_mem_nil
  · rw [cls_initial]
    exact List.Pairwise.nil

namespace Consistent

theorem name_inj (h : g.Consistent) :
    ∀ c ∈ g.classes, ∀ d ∈ g.classes, (g.cls c).name = (g.cls d).name → c = d :=
  h.classes.name_inj

/-- A look-up finds the class of the name. -/
theorem lookup_iff (h : g.Consistent) :
    g.lookup name = some c ↔ c ∈ g.classes ∧ (g.cls c).name = name := by
  rw [lookup_eq_some_iff]
  refine ⟨fun hc => ⟨hc.1, hc.2.1⟩, fun hc => ⟨hc.1, hc.2, fun d hd hname => ?_⟩⟩
  have hdc := h.name_inj d (Nat.lt_trans hd hc.1) c hc.1 (hname.trans hc.2.symm)
  rw [hdc] at hd
  exact Nat.lt_irrefl _ hd

/-- Superclasses are older, so no chain of them goes on for ever. -/
theorem superclass_wellFounded (h : g.Consistent) :
    WellFounded fun s c => (g.cls c).superclass = some s :=
  Subrelation.wf (fun {s c} hs => h.classes.superclass_lt c s hs) (measure Index.num).wf

theorem push (h : g.Consistent) (hs : ∀ s ∈ data.superclass, s ∈ g.classes)
    (hi : ∀ i ∈ data.interfaces, i ∈ g.classes) (hmethods : data.methods = [])
    (hnone : g.lookup data.name = none) :
    Consistent { g with classes := g.classes.push data } := by
  refine ⟨h.classes.push hs hi hnone, fun c k hk => ?_, fun c => ?_⟩
  · rw [cls_push] at hk
    split at hk
    · rw [hmethods] at hk
      exact absurd hk List.not_mem_nil
    · exact h.listed c k hk
  · rw [cls_push]
    split
    · rw [hmethods]
      exact List.Pairwise.nil
    · exact h.keys c

theorem addInterface (h : g.Consistent) (hi : i ∈ g.classes) : (g.addInterface c i).Consistent := by
  refine ⟨h.classes.addInterface hi, fun d k hk => ?_, fun d => ?_⟩
  · rw [methods_addInterface] at hk
    exact h.listed d k hk
  · rw [methods_addInterface]
    exact h.keys d

theorem withMethod (h : g.Consistent)
    (hnew : ∀ k ∈ (g.cls m.owner).methods, (g.method k).sameKey m = false) :
    (g.withMethod m).Consistent := by
  have hmethod : ∀ d, ∀ k ∈ (g.cls d).methods, (g.withMethod m).method k = g.method k :=
    fun d k hk => method_withMethod_of_mem m (h.listed d k hk).1
  -- the classes differ in nothing but the methods that they list
  have hclasses : (g.withMethod m).withoutMethods.WellFormed := by
    have hfields := g.fields_withMethod m
    refine h.classes.update (fun d => Table.mem_modify) (fun d => (hfields d).1)
      (fun d => (hfields d).2.2.1) (fun d => (hfields d).2.1) (fun d j hj => ?_) fun k hk =>
      absurd hk (Nat.not_lt_zero _)
    exact h.classes.interfaces_mem d j ((hfields d).2.2.2 ▸ hj)
  -- the methods from before keep their classes and their keys
  have hlisted : ∀ d, ∀ k ∈ (g.cls d).methods, k ∈ (g.withMethod m).methods ∧
      ((g.withMethod m).method k).owner = d := by
    intro d k hk
    rw [hmethod d k hk]
    exact ⟨Table.mem_push.2 (Or.inl (h.listed d k hk).1), (h.listed d k hk).2⟩
  have hkeys : ∀ d, (g.cls d).methods.Pairwise fun k l =>
      ((g.withMethod m).method k).sameKey ((g.withMethod m).method l) = false := by
    intro d
    refine (h.keys d).imp_of_mem fun hk hl hkl => ?_
    rwa [hmethod d _ hk, hmethod d _ hl]
  refine ⟨hclasses, fun d k hk => ?_, fun d => ?_⟩
  · rw [cls_withMethod] at hk
    split at hk
    · rename_i hd
      rcases List.mem_append.1 hk with hk | hk
      -- an old one of the owner, the new one, or one of another class
      · exact hlisted d k hk
      · rw [List.mem_singleton.1 hk, method_withMethod_next]
        exact ⟨Table.mem_push.2 (Or.inr rfl), hd.1⟩
    · exact hlisted d k hk
  · rw [cls_withMethod]
    split
    · rename_i hd
      refine List.pairwise_append.2 ⟨hkeys d, List.pairwise_singleton _ _, fun k hk l hl => ?_⟩
      rw [List.mem_singleton.1 hl, method_withMethod_next, hmethod d k hk]
      exact hnew k (hd.1 ▸ hk)
    · exact hkeys d

theorem addMethod (h : g.Consistent) (m : MethodData) : (g.addMethod m).2.Consistent := by
  rcases g.addMethod_cases m with ⟨k, -, -, hadd⟩ | ⟨hnew, hadd⟩
  · rwa [hadd]
  · rw [hadd]
    exact h.withMethod hnew

theorem addPlatformClass (h : g.Consistent) (hp : g.addPlatformClass p = .ok g') :
    g'.Consistent := by
  obtain ⟨s, is, c, hs, his, hadded⟩ := addPlatformClass_ok hp
  obtain ⟨-, rfl, hnone⟩ := addClass_ok hadded
  refine h.push (fun s' hs' => ?_) (mem_of_mapM_resolve his) rfl hnone
  rw [← Option.some.inj hs']
  exact mem_of_resolve hs

theorem addPlatform (h : g.Consistent) : g.addPlatform.1.Consistent := by
  refine attemptAll_preserves (fun g p hg => ?_) PlatformClass.all h
  unfold tryPlatformClass
  split
  · exact hg.addPlatformClass ‹_›
  · exact hg

end Consistent

/-! ### Calls that name what is there -/

/-- A class that is added has a superclass and interfaces that are there and no methods yet, and so
is an interface that is added to a class. -/
def Call.Known (g : Hierarchy) : Call → Prop
  | addClass data =>
    (∀ s ∈ data.superclass, s ∈ g.classes) ∧ (∀ i ∈ data.interfaces, i ∈ g.classes) ∧
      data.methods = []
  | addInterface _ i => i ∈ g.classes
  | addMethod _ | addPlatform => True

/-- Each of some calls names only what is there when it comes. -/
def KnownAll (g : Hierarchy) : List Call → Prop
  | [] => True
  | call :: calls => call.Known g ∧ (call.apply g).KnownAll calls

instance (g : Hierarchy) : (call : Call) → Decidable (call.Known g)
  | .addClass _ => inferInstanceAs (Decidable (_ ∧ _ ∧ _))
  | .addInterface _ i => inferInstanceAs (Decidable (i ∈ g.classes))
  | .addMethod _ | .addPlatform => isTrue trivial

instance decidableKnownAll (g : Hierarchy) : (calls : List Call) → Decidable (g.KnownAll calls)
  | [] => isTrue trivial
  | call :: calls =>
    have := decidableKnownAll (call.apply g) calls
    inferInstanceAs (Decidable (call.Known g ∧ (call.apply g).KnownAll calls))

theorem Consistent.apply {call : Call} (h : g.Consistent) (hknown : call.Known g) :
    (call.apply g).Consistent := by
  cases call with
  | addClass data =>
    rcases g.addClass_cases data with ⟨-, -, -, happly, -⟩ | ⟨hnone, -, happly, -⟩
    · rwa [happly]
    · rw [happly]
      exact h.push hknown.1 hknown.2.1 hknown.2.2 hnone
  | addInterface c i => exact h.addInterface hknown
  | addMethod m => exact h.addMethod m
  | addPlatform => exact h.addPlatform

theorem Consistent.applyAll {calls : List Call} (h : g.Consistent) (hknown : g.KnownAll calls) :
    (g.applyAll calls).Consistent := by
  induction calls generalizing g with
  | nil => exact h
  | cons call calls ih => exact ih (h.apply hknown.1) hknown.2

/-! ### Methods -/

/-- What adding a method gives: a method of its key that its class lists, which is the one that was
listed before, if one was, and else a new one. -/
structure MethodAdded (g : Hierarchy) (m : MethodData) : Prop where
  listed : (g.addMethod m).1 ∈ ((g.addMethod m).2.cls m.owner).methods
  key : ((g.addMethod m).2.method (g.addMethod m).1).sameKey m = true
  earlier : ∀ k ∈ (g.cls m.owner).methods, (g.method k).sameKey m = true → g.addMethod m = (k, g)
  new : (∀ k ∈ (g.cls m.owner).methods, (g.method k).sameKey m = false) →
    (g.addMethod m).1 ∉ g.methods ∧ (g.addMethod m).2.method (g.addMethod m).1 = m

theorem Consistent.eq_of_sameKey {l : MethodId} (h : g.Consistent) (hk : k ∈ (g.cls c).methods)
    (hl : l ∈ (g.cls c).methods) (hkey : (g.method k).sameKey (g.method l) = true) : k = l := by
  have : Std.Symm fun k l => (g.method k).sameKey (g.method l) = false :=
    ⟨fun k l hkl => by rwa [MethodData.sameKey_comm]⟩
  by_contra hne
  have hdiffer := (h.keys c).forall hk hl hne
  rw [hkey] at hdiffer
  exact Bool.noConfusion hdiffer

theorem Consistent.methodAdded (h : g.Consistent) (howner : m.owner ∈ g.classes) :
    g.MethodAdded m := by
  rcases g.addMethod_cases m with ⟨k, hk, hkey, hadd⟩ | ⟨hnew, hadd⟩
  · refine ⟨by rwa [hadd], by rwa [hadd], fun l hl hkey' => ?_, fun hnone => ?_⟩
    · rw [hadd, h.eq_of_sameKey hk hl (MethodData.sameKey_of_sameKey hkey hkey')]
    · rw [hnone k hk] at hkey
      exact Bool.noConfusion hkey
  · have hmethod : (g.addMethod m).2.method (g.addMethod m).1 = m := by
      rw [hadd]
      exact method_withMethod_next g m
    refine ⟨?_, ?_, fun l hl hkey => ?_, fun _ => ⟨?_, hmethod⟩⟩
    · rw [hadd, cls_withMethod, if_pos ⟨rfl, howner⟩]
      exact List.mem_append_right _ List.mem_cons_self
    · rw [hmethod]
      exact MethodData.sameKey_iff.2 ⟨rfl, rfl, rfl⟩
    · rw [hnew l hl] at hkey
      exact Bool.noConfusion hkey
    · rw [hadd]
      exact Table.next_notMem _

/-! ### The platform up to a duplicate -/

/-- A class is as the platform has it, and what it mentions are the classes of these names. -/
structure IsPlatformClass (g : Hierarchy) (p : PlatformClass) (c : ClassId) : Prop where
  name : (g.cls c).name = p.name
  superclass : ∃ s, g.lookup p.superclass = some s ∧ (g.cls c).superclass = some s
  interfaces : List.Forall₂ (fun name i => g.lookup name = some i) p.interfaces (g.cls c).interfaces
  flags : (g.cls c).flags = .ofList p.flags
  methods : (g.cls c).methods = []

/-- Some classes of the platform have been added in their order, and nothing else has changed. -/
structure PlatformAdded (g : Hierarchy) (ps : List PlatformClass) (g' : Hierarchy) : Prop where
  size : g'.classes.size = g.classes.size + ps.length
  methods : g'.methods = g.methods
  kept : ∀ c ∈ g.classes, g'.cls c = g.cls c
  added : ∀ j p, ps[j]? = some p → g'.IsPlatformClass p ⟨g.classes.size + j⟩

/-- The classes of the platform have been added up to the first whose name was there already, which
is what the error is about. -/
def AddedUpToDuplicate (g : Hierarchy) (ps : List PlatformClass)
    (result : Hierarchy × Option HierarchyError) : Prop :=
  ∃ before after, ps = before ++ after ∧ (∀ p ∈ before, g.lookup p.name = none) ∧
    g.PlatformAdded before result.1 ∧
    (after = [] ∧ result.2 = none ∨
      ∃ p d, after.head? = some p ∧ g.lookup p.name = some d ∧
      result.2 = some (.duplicateClass p.name))

theorem IsPlatformClass.mono (h : g.IsPlatformClass p c) (hg : g.Extends g')
    (hcls : g'.cls c = g.cls c) :
    g'.IsPlatformClass p c := by
  obtain ⟨s, hlookup, hs⟩ := h.superclass
  refine ⟨hcls ▸ h.name, ⟨s, hg.lookup hlookup, hcls ▸ hs⟩, ?_, hcls ▸ h.flags, hcls ▸ h.methods⟩
  rw [hcls]
  exact h.interfaces.imp fun _ _ hi => hg.lookup hi

namespace PlatformAdded

theorem nil (g : Hierarchy) : g.PlatformAdded [] g :=
  ⟨rfl, rfl, fun _ _ => rfl, fun _ _ h => by simp at h⟩

theorem extended (h : g.PlatformAdded ps g') : g.Extends g' where
  mem_classes _ hc := Nat.lt_of_lt_of_le hc (h.size ▸ Nat.le_add_right _ _)
  name c hc := by rw [h.kept c hc]
  superclass c hc := by rw [h.kept c hc]
  flags c hc := by rw [h.kept c hc]
  interfaces c hc := by
    rewrite [h.kept c hc]
    exact List.prefix_rfl
  methods c hc := by
    rewrite [h.kept c hc]
    exact List.prefix_rfl
  mem_methods k hk := by rwa [h.methods]
  method k _ := by rw [method, h.methods]; rfl

theorem cons (hp : g.addPlatformClass p = .ok g') (h : g'.PlatformAdded ps g'') :
    g.PlatformAdded (p :: ps) g'' := by
  obtain ⟨-, s, is, hs, his, hg'⟩ := addPlatformClass_eq_push hp
  have hext := extends_addPlatformClass hp
  have hsize : g'.classes.size = g.classes.size + 1 := by rw [hg', Table.size_push]
  have hcls : g'.cls g.classes.next = ⟨p.name, some s, is, .ofList p.flags, []⟩ := by
    rw [hg', cls_push, if_pos rfl]
  have hclass : g'.IsPlatformClass p g.classes.next := by
    refine ⟨congrArg ClassData.name hcls,
      ⟨s, hext.lookup hs, congrArg ClassData.superclass hcls⟩, ?_, congrArg ClassData.flags hcls,
      congrArg ClassData.methods hcls⟩
    rw [hcls]
    exact his.imp fun _ _ hi => hext.lookup hi
  refine ⟨?_, ?_, fun c hc => ?_, fun j q hq => ?_⟩
  · rw [h.size, hsize, List.length_cons]
    omega
  · rw [h.methods, hg']
  · rw [h.kept c (hext.mem_classes c hc), hg', cls_push_of_mem _ hc]
  · cases j with
    | zero =>
      obtain rfl := Option.some.inj hq
      have hnext : g.classes.next ∈ g'.classes := by
        rw [hg']
        exact Table.mem_push.2 (Or.inr rfl)
      exact hclass.mono h.extended (h.kept _ hnext)
    | succ j =>
      have hlater := h.added j q hq
      rwa [hsize, Nat.add_assoc, Nat.add_comm 1] at hlater

end PlatformAdded

/-- Each class mentions only known names and those of the classes before it. -/
def MentionsOnly (known : List BinaryName) : List PlatformClass → Prop
  | [] => True
  | p :: ps => (p.superclass ∈ known ∧ ∀ name ∈ p.interfaces, name ∈ known) ∧
      MentionsOnly (p.name :: known) ps

instance decidableMentionsOnly (known : List BinaryName) :
    (ps : List PlatformClass) → Decidable (MentionsOnly known ps)
  | [] => isTrue trivial
  | p :: ps =>
    have := decidableMentionsOnly (p.name :: known) ps
    inferInstanceAs
      (Decidable ((p.superclass ∈ known ∧ ∀ name ∈ p.interfaces, name ∈ known) ∧
      MentionsOnly (p.name :: known) ps))

theorem mapM_resolve_of_found {names : List BinaryName}
    (h : ∀ name ∈ names, ∃ c, g.lookup name = some c) :
    ∃ cs, names.mapM g.resolve = .ok cs := by
  induction names with
  | nil => exact ⟨[], rfl⟩
  | cons name names ih =>
    obtain ⟨c, hc⟩ := h name List.mem_cons_self
    obtain ⟨cs, hcs⟩ := ih fun name hname => h name (List.mem_cons_of_mem _ hname)
    refine ⟨c :: cs, ?_⟩
    rw [List.mapM_cons, resolve_eq_ok_iff.2 hc, hcs]
    rfl

/-- Where what it mentions is found, a class of the platform is refused exactly if there is one of
its name. -/
theorem addPlatformClass_of_found (hs : ∃ s, g.lookup p.superclass = some s)
    (hi : ∀ name ∈ p.interfaces, ∃ i, g.lookup name = some i) :
    (∃ d, g.lookup p.name = some d ∧ g.addPlatformClass p = .error (.duplicateClass p.name)) ∨
      ∃ g', g.addPlatformClass p = .ok g' := by
  obtain ⟨s, hs⟩ := hs
  obtain ⟨is, his⟩ := mapM_resolve_of_found hi
  rcases g.addClass_cases ⟨p.name, some s, is, .ofList p.flags, []⟩ with
    ⟨d, hd, hadd, -⟩ | ⟨-, hadd, -⟩
  · refine Or.inl ⟨d, hd, ?_⟩
    simp only [addPlatformClass, resolve_eq_ok_iff.2 hs, his, hadd, bind, Except.bind]
  · refine Or.inr
      ⟨{ g with classes := g.classes.push ⟨p.name, some s, is, .ofList p.flags, []⟩ }, ?_⟩
    simp only [addPlatformClass, resolve_eq_ok_iff.2 hs, his, hadd, bind, Except.bind,
      pure, Except.pure]

theorem tryPlatformClasses_upToDuplicate {known : List BinaryName} (hps : MentionsOnly known ps)
    (hnodup : (ps.map PlatformClass.name).Nodup)
    (hknown : ∀ name ∈ known, ∃ c, g.lookup name = some c) :
    g.AddedUpToDuplicate ps (attemptAll tryPlatformClass g ps) := by
  induction ps generalizing g known with
  | nil => exact ⟨[], [], rfl, by simp, .nil g, Or.inl ⟨rfl, rfl⟩⟩
  | cons p ps ih =>
    obtain ⟨⟨hs, hi⟩, hps⟩ := hps
    obtain ⟨hp, hnodup⟩ := List.nodup_cons.1 hnodup
    rcases addPlatformClass_of_found (hknown _ hs) fun name hname =>
      hknown name (hi name hname) with ⟨d, hd, hadd⟩ | ⟨g', hadd⟩
    · have htry : attemptAll tryPlatformClass g (p :: ps) = (g, some (.duplicateClass p.name)) := by
        simp only [attemptAll, tryPlatformClass, hadd]
      rw [htry]
      exact ⟨[], p :: ps, rfl, by simp, .nil g, Or.inr ⟨p, d, rfl, hd, rfl⟩⟩
    · have htry : attemptAll tryPlatformClass g (p :: ps) = attemptAll tryPlatformClass g' ps := by
        simp only [attemptAll, tryPlatformClass, hadd]
      have hext := extends_addPlatformClass hadd
      obtain ⟨hnone, s, is, -, -, hg'⟩ := addPlatformClass_eq_push hadd
      have hlookup : ∀ {name c}, g'.lookup name = some c ↔ g.lookup name = some c ∨ name = p.name ∧
          c = g.classes.next := by
        intro name c
        rw [hg']
        exact lookup_push hnone
      have hknown' : ∀ name ∈ p.name :: known, ∃ c, g'.lookup name = some c := by
        intro name hname
        rcases List.mem_cons.1 hname with rfl | hname
        · exact ⟨_, hlookup.2 (Or.inr ⟨rfl, rfl⟩)⟩
        · obtain ⟨c, hc⟩ := hknown name hname
          exact ⟨c, hext.lookup hc⟩
      obtain ⟨before, after, hsplit, hbefore, hadded, hend⟩ := ih hps hnodup hknown'
      rw [htry]
      refine ⟨p :: before, after, congrArg _ hsplit, List.forall_mem_cons.2 ⟨hnone, fun q hq => ?_⟩,
        .cons hadd hadded, hend.imp_right ?_⟩
      · refine Option.eq_none_iff_forall_ne_some.2 fun c hc => ?_
        have hfound := hext.lookup hc
        simp [hbefore q hq] at hfound
      · -- the names of the platform differ, so the class that was added is not the duplicate
        rintro ⟨q, d, hq, hd, herror⟩
        refine ⟨q, d, hq, (hlookup.1 hd).resolve_right fun hqp => hp ?_, herror⟩
        rw [← hqp.1, hsplit]
        exact List.mem_map_of_mem (List.mem_append_right _ (List.mem_of_mem_head? hq))

/-! ### All calls -/

theorem lookup_initial : initial.lookup name = some c ↔ name = .object ∧ c = object := by
  rw [consistent_initial.lookup_iff, cls_initial, and_comm, eq_comm]
  refine and_congr_right fun _ => ⟨fun hc => ?_, fun hc => hc ▸ wellFormed_initial.object_mem⟩
  obtain ⟨n⟩ := c
  exact congrArg Index.mk (Nat.lt_one_iff.1 hc)

/-- **A hierarchy stays consistent.** Whatever calls come, names stay distinct, and looking up a
name finds the class of this name that has been added, and the same one for ever. Chains of
superclasses end. A class lists methods of its own, no two of the same key, and adding one of a key
that is listed gives the one that is. A class that is refused changes nothing, and a platform that
is refused has been added up to the class that was there already. -/
theorem applyAll_consistent {calls : List Call} (hknown : initial.KnownAll calls) :
    let g := initial.applyAll calls
    (∀ c ∈ g.classes, ∀ d ∈ g.classes, (g.cls c).name = (g.cls d).name → c = d) ∧
      (∀ name c, g.lookup name = some c ↔ c ∈ g.classes ∧ (g.cls c).name = name) ∧
      (∀ name c, g.lookup name = some c ↔
        (name, c) ∈ (.object, object) :: initial.additions calls) ∧
      (∀ name c, g.lookup name = some c → ∀ later, (g.applyAll later).lookup name = some c) ∧
      (WellFounded fun s c => (g.cls c).superclass = some s) ∧
      (∀ c, (g.cls c).methods.Pairwise fun k l => (g.method k).sameKey (g.method l) = false) ∧
      (∀ c, ∀ k ∈ (g.cls c).methods, k ∈ g.methods ∧ (g.method k).owner = c) ∧
      (∀ m, m.owner ∈ g.classes → g.MethodAdded m) ∧
      (∀ data, (∀ e, g.addClass data = .error e → e = .duplicateClass data.name ∧
        (Call.addClass data).apply g = g) ∧
        ((∃ e, g.addClass data = .error e) ↔ ∃ d, g.lookup data.name = some d)) ∧
      g.AddedUpToDuplicate PlatformClass.all g.addPlatform := by
  intro g
  have hg : g.Consistent := consistent_initial.applyAll hknown
  have hobject : g.lookup .object = some object :=
    (initial.extends_applyAll calls).lookup (lookup_initial.2 ⟨rfl, rfl⟩)
  refine ⟨hg.name_inj, fun name c => hg.lookup_iff, fun name c => ?_, fun name c hc later =>
    (g.extends_applyAll later).lookup hc, hg.superclass_wellFounded, hg.keys, hg.listed,
    fun m hm => hg.methodAdded hm, fun data => ?_, ?_⟩
  · rw [lookup_applyAll, lookup_initial, List.mem_cons, Prod.mk.injEq]
  -- a class is refused exactly for a name that is there already
  · rcases g.addClass_cases data with ⟨d, hd, hadd, happly, -⟩ | ⟨hnone, hadd, -⟩
    · refine ⟨fun e he => ⟨?_, happly⟩, fun _ => ⟨d, hd⟩, fun _ => ⟨_, hadd⟩⟩
      exact Except.error.inj (he.symm.trans hadd)
    · simp [hadd, hnone]
  -- the platform mentions itself and `Object` only, which is there from the start
  · have hmentions : MentionsOnly [.object] PlatformClass.all := by decide +kernel
    refine tryPlatformClasses_upToDuplicate hmentions (by decide +kernel) fun name hname => ?_
    rw [List.mem_singleton.1 hname]
    exact ⟨object, hobject⟩

/-- A method without parameters. -/
def plainMethod : MethodData := ⟨⟨1⟩, .init, ⟨[], none⟩, .ofList []⟩

/-- A class of the platform is there before the platform, twice but for its name, and is its own
interface. Its only method is added twice. -/
def forestalled : List Call :=
  [.addClass ⟨.comparable, some ⟨0⟩, [], .ofList PlatformClass.interfaceFlags, []⟩,
    .addClass ⟨.comparable, none, [⟨1⟩], .ofList [], []⟩,
   .addInterface ⟨1⟩ ⟨1⟩, .addMethod plainMethod, .addMethod plainMethod, .addPlatform]

/-- The second class of the name is refused. Of the platform only the two classes before it are
added. -/
theorem applyAll_consistent_forestalled :
    initial.KnownAll forestalled ∧ (initial.applyAll forestalled).lookup .comparable = some ⟨1⟩ ∧
      (initial.applyAll forestalled).lookup .cloneable = some ⟨3⟩ ∧
        (initial.applyAll forestalled).lookup .string = none ∧
      (initial.applyAll forestalled).addMethod plainMethod =
        (⟨0⟩, initial.applyAll forestalled) := by
  have hknown : initial.KnownAll forestalled := by decide +kernel
  have hadditions :
    initial.additions forestalled = [(.comparable, ⟨1⟩), (.serializable, ⟨2⟩),
    (.cloneable, ⟨3⟩)] := by decide +kernel
  have hmethods : ⟨1⟩ ∈ (initial.applyAll forestalled).classes ∧
    ((initial.applyAll forestalled).cls ⟨1⟩).methods = [⟨0⟩] ∧
    ((initial.applyAll forestalled).method ⟨0⟩).sameKey plainMethod = true := by decide +kernel
  obtain ⟨-, -, hlookup, -, -, -, -, hmethod, -⟩ := applyAll_consistent hknown
  rw [hadditions] at hlookup
  refine ⟨hknown, (hlookup _ _).2 (by decide +kernel), (hlookup _ _).2 (by decide +kernel), ?_, ?_⟩
  · refine Option.eq_none_iff_forall_ne_some.2 fun c hc => ?_
    have hadded := List.mem_map_of_mem (f := Prod.fst) ((hlookup _ _).1 hc)
    simp only at hadded
    exact absurd hadded (by decide +kernel)
  · exact (hmethod plainMethod hmethods.1).earlier ⟨0⟩
      (hmethods.2.1 ▸ List.mem_cons_self) hmethods.2.2

end Hierarchy

end JvmLowering
