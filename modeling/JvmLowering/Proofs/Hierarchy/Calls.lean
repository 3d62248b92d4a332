import JvmLowering.Proofs.Hierarchy.Growth
import Mathlib.Data.List.Forall2

/-!
# Calls that make a hierarchy grow

Classes, interfaces, methods and the platform are added by calls that come in any order, and some of
them fail. None of them takes anything away: a class keeps its index, its name and its superclass,
and its interfaces and methods only become more.

* `Extends`: what every call keeps, also one that fails;
* `Call`, `applyAll`, `additions`: sequences of calls, and the classes that they have added;
* `extends_applyAll`: all calls keep what was there;
* `lookup_applyAll`: a class is found by its name exactly if it was found before or has been added.
-/

namespace JvmLowering

theorem Table.find?_eq_some_iff {k : Entity} {α : Type} [Inhabited α] {t : Table k α}
    {p : α → Bool} {i : Index k} :
    t.find? p = some i ↔ i ∈ t ∧ p (t.get i) = true ∧ ∀ j : Index k, j.num < i.num →
      p (t.get j) = false := by
  obtain ⟨n⟩ := i
  simp only [find?, indices, List.find?_map, Option.map_eq_some_iff, Index.mk.injEq,
    exists_eq_right, List.find?_range_eq_some, List.mem_range, Function.comp_apply,
    Bool.not_eq_true', mem_def]
  constructor
  · rintro ⟨hp, hn, hbefore⟩
    exact ⟨hn, hp, fun j hj => hbefore j.num hj⟩
  · rintro ⟨hn, hp, hbefore⟩
    exact ⟨hp, hn, fun j hj => hbefore ⟨j⟩ hj⟩

namespace Hierarchy

variable {g g' g'' : Hierarchy} {c d i : ClassId} {k : MethodId} {m : MethodData} {data : ClassData}
  {name : BinaryName} {p : PlatformClass} {ps : List PlatformClass}

/-- A look-up finds the first class of the name. -/
theorem lookup_eq_some_iff :
    g.lookup name = some c ↔ c ∈ g.classes ∧ (g.cls c).name = name ∧ ∀ d : ClassId, d.num < c.num →
      (g.cls d).name ≠ name := by
  simp only [lookup, Table.find?_eq_some_iff, decide_eq_true_eq, decide_eq_false_iff_not,
    cls, ne_eq]

/-! ### What every call keeps -/

/-- The second hierarchy has all that the first one has. -/
structure Extends (g g' : Hierarchy) : Prop where
  mem_classes : ∀ c ∈ g.classes, c ∈ g'.classes
  name : ∀ c ∈ g.classes, (g'.cls c).name = (g.cls c).name
  superclass : ∀ c ∈ g.classes, (g'.cls c).superclass = (g.cls c).superclass
  flags : ∀ c ∈ g.classes, (g'.cls c).flags = (g.cls c).flags
  interfaces : ∀ c ∈ g.classes, (g.cls c).interfaces <+: (g'.cls c).interfaces
  methods : ∀ c ∈ g.classes, (g.cls c).methods <+: (g'.cls c).methods
  mem_methods : ∀ k ∈ g.methods, k ∈ g'.methods
  method : ∀ k ∈ g.methods, g'.method k = g.method k

namespace Extends

theorem refl (g : Hierarchy) : g.Extends g :=
  ⟨fun _ hc => hc, fun _ _ => rfl, fun _ _ => rfl, fun _ _ => rfl, fun _ _ => List.prefix_rfl,
    fun _ _ => List.prefix_rfl,
    fun _ hk => hk, fun _ _ => rfl⟩

theorem trans (h : g.Extends g') (h' : g'.Extends g'') : g.Extends g'' where
  mem_classes c hc := h'.mem_classes c (h.mem_classes c hc)
  name c hc := (h'.name c (h.mem_classes c hc)).trans (h.name c hc)
  superclass c hc := (h'.superclass c (h.mem_classes c hc)).trans (h.superclass c hc)
  flags c hc := (h'.flags c (h.mem_classes c hc)).trans (h.flags c hc)
  interfaces c hc := (h.interfaces c hc).trans (h'.interfaces c (h.mem_classes c hc))
  methods c hc := (h.methods c hc).trans (h'.methods c (h.mem_classes c hc))
  mem_methods k hk := h'.mem_methods k (h.mem_methods k hk)
  method k hk := (h'.method k (h.mem_methods k hk)).trans (h.method k hk)

/-- A class that is found by its name is found for ever. -/
theorem lookup (h : g.Extends g') (hc : g.lookup name = some c) : g'.lookup name = some c := by
  obtain ⟨hmem, hname, hbefore⟩ := lookup_eq_some_iff.1 hc
  refine lookup_eq_some_iff.2 ⟨h.mem_classes c hmem, (h.name c hmem).trans hname, fun d hd => ?_⟩
  rw [h.name d (Nat.lt_trans hd hmem)]
  exact hbefore d hd

end Extends

theorem extends_push (g : Hierarchy) (data : ClassData) :
    g.Extends { g with classes := g.classes.push data } where
  mem_classes _ hc := Table.mem_push.2 (Or.inl hc)
  name _ hc := by rw [cls_push_of_mem data hc]
  superclass _ hc := by rw [cls_push_of_mem data hc]
  flags _ hc := by rw [cls_push_of_mem data hc]
  interfaces _ hc := by
    rewrite [cls_push_of_mem data hc]
    exact List.prefix_rfl
  methods _ hc := by
    rewrite [cls_push_of_mem data hc]
    exact List.prefix_rfl
  mem_methods _ hk := hk
  method _ _ := rfl

/-- An interface that is added to a class changes nothing but its interfaces. -/
theorem fields_addInterface (g : Hierarchy) (c i d : ClassId) :
    ((g.addInterface c i).cls d).name = (g.cls d).name ∧ ((g.addInterface c i).cls d).superclass =
      (g.cls d).superclass ∧
      ((g.addInterface c i).cls d).flags = (g.cls d).flags ∧ ((g.addInterface c i).cls d).methods =
        (g.cls d).methods := by
  rw [cls_addInterface]
  split <;> exact ⟨rfl, rfl, rfl, rfl⟩

theorem methods_addInterface (g : Hierarchy) (c i d : ClassId) :
    ((g.addInterface c i).cls d).methods = (g.cls d).methods :=
  (g.fields_addInterface c i d).2.2.2

theorem extends_addInterface (g : Hierarchy) (c i : ClassId) : g.Extends (g.addInterface c i) where
  mem_classes _ hd := mem_addInterface.2 hd
  name d _ := (g.fields_addInterface c i d).1
  superclass d _ := (g.fields_addInterface c i d).2.1
  flags d _ := (g.fields_addInterface c i d).2.2.1
  interfaces d _ := by
    rw [cls_addInterface]
    split
    · exact List.prefix_append _ _
    · exact List.prefix_rfl
  methods d _ := by
    rewrite [methods_addInterface]
    exact List.prefix_rfl
  mem_methods _ hk := hk
  method _ _ := rfl

/-- A hierarchy with one more method, listed in its class. -/
def withMethod (g : Hierarchy) (m : MethodData) : Hierarchy :=
  ⟨g.classes.modify m.owner fun d => { d with methods := d.methods ++ [g.methods.next] },
    g.methods.push m⟩

/-- A method that is added is one that its class lists already, or else a new one. -/
theorem addMethod_cases (g : Hierarchy) (m : MethodData) :
    (∃ k ∈ (g.cls m.owner).methods, (g.method k).sameKey m = true ∧ g.addMethod m = (k, g)) ∨
      (∀ k ∈ (g.cls m.owner).methods, (g.method k).sameKey m = false) ∧
        g.addMethod m = (g.methods.next, g.withMethod m) := by
  unfold addMethod
  split
  · rename_i k hk
    have hkey := List.find?_some hk
    exact Or.inl ⟨k, List.mem_of_find?_eq_some hk, hkey, rfl⟩
  · rename_i hnone
    refine Or.inr ⟨fun k hk => ?_, rfl⟩
    simpa using List.find?_eq_none.1 hnone k hk

theorem cls_withMethod (g : Hierarchy) (m : MethodData) (d : ClassId) :
    (g.withMethod m).cls d =
      if m.owner = d ∧ d ∈ g.classes then
        { g.cls d with methods := (g.cls d).methods ++ [g.methods.next] } else g.cls d :=
  Table.get_modify _ _ _ _

/-- A method that is added changes nothing of a class but its methods. -/
theorem fields_withMethod (g : Hierarchy) (m : MethodData) (d : ClassId) :
    ((g.withMethod m).cls d).name = (g.cls d).name ∧ ((g.withMethod m).cls d).superclass =
      (g.cls d).superclass ∧
      ((g.withMethod m).cls d).flags = (g.cls d).flags ∧ ((g.withMethod m).cls d).interfaces =
        (g.cls d).interfaces := by
  rw [cls_withMethod]
  split <;> exact ⟨rfl, rfl, rfl, rfl⟩

theorem method_withMethod_of_mem (m : MethodData) (hk : k ∈ g.methods) :
    (g.withMethod m).method k = g.method k := by
  refine (Table.get_push g.methods m k).trans (if_neg ?_)
  rintro rfl
  exact Table.next_notMem _ hk

theorem method_withMethod_next (g : Hierarchy) (m : MethodData) :
    (g.withMethod m).method g.methods.next = m :=
  (Table.get_push g.methods m _).trans (if_pos rfl)

theorem extends_withMethod (g : Hierarchy) (m : MethodData) : g.Extends (g.withMethod m) where
  mem_classes _ hd := Table.mem_modify.2 hd
  name d _ := (g.fields_withMethod m d).1
  superclass d _ := (g.fields_withMethod m d).2.1
  flags d _ := (g.fields_withMethod m d).2.2.1
  interfaces d _ := by
    rewrite [(g.fields_withMethod m d).2.2.2]
    exact List.prefix_rfl
  methods d _ := by
    rw [cls_withMethod]
    split
    · exact List.prefix_append _ _
    · exact List.prefix_rfl
  mem_methods _ hk := Table.mem_push.2 (Or.inl hk)
  method _ hk := method_withMethod_of_mem m hk

theorem extends_addMethod (g : Hierarchy) (m : MethodData) : g.Extends (g.addMethod m).2 := by
  rcases g.addMethod_cases m with ⟨k, -, -, h⟩ | ⟨-, h⟩
  · rw [h]
    exact .refl g
  · rw [h]
    exact g.extends_withMethod m

/-! ### Classes of the platform -/

theorem resolve_eq_ok_iff : g.resolve name = .ok c ↔ g.lookup name = some c := by
  unfold resolve
  split <;> simp_all

theorem forall₂_of_mapM_resolve {names : List BinaryName} {cs : List ClassId}
    (h : names.mapM g.resolve = .ok cs) :
    List.Forall₂ (fun name c => g.lookup name = some c) names cs := by
  induction names generalizing cs with
  | nil =>
    obtain rfl := Except.ok.inj h
    exact .nil
  | cons name names ih =>
    rw [List.mapM_cons] at h
    obtain ⟨c, hc, h⟩ := bind_eq_ok h
    obtain ⟨cs', hcs, h⟩ := bind_eq_ok h
    obtain rfl := Except.ok.inj h
    exact .cons (resolve_eq_ok_iff.1 hc) (ih hcs)

/-- A class of the platform that is added is the newest class, and what it mentions is found by its
name. -/
theorem addPlatformClass_eq_push (h : g.addPlatformClass p = .ok g') :
    g.lookup p.name = none ∧ ∃ s is, g.lookup p.superclass = some s ∧
      List.Forall₂ (fun name c => g.lookup name = some c) p.interfaces is ∧
      g' = { g with classes := g.classes.push ⟨p.name, some s, is, .ofList p.flags, []⟩ } := by
  obtain ⟨s, is, c, hs, his, hadded⟩ := addPlatformClass_ok h
  obtain ⟨-, hg', hnone⟩ := addClass_ok hadded
  exact ⟨hnone, s, is, resolve_eq_ok_iff.1 hs, forall₂_of_mapM_resolve his, hg'⟩

theorem extends_addPlatformClass (h : g.addPlatformClass p = .ok g') : g.Extends g' := by
  obtain ⟨-, s, is, -, -, rfl⟩ := addPlatformClass_eq_push h
  exact g.extends_push _

theorem extends_tryPlatformClass (g : Hierarchy) (p : PlatformClass) :
    g.Extends (g.tryPlatformClass p).1 := by
  unfold tryPlatformClass
  split
  · exact extends_addPlatformClass ‹_›
  · exact .refl g

theorem extends_tryPlatformClasses (g : Hierarchy) (ps : List PlatformClass) :
    g.Extends (attemptAll tryPlatformClass g ps).1 :=
  attemptAll_preserves (fun h p hg => hg.trans (h.extends_tryPlatformClass p)) ps (.refl g)

/-! ### Calls -/

/-- A call that makes a hierarchy grow. -/
inductive Call where
  | addClass (data : ClassData)
  | addInterface (c i : ClassId)
  | addMethod (m : MethodData)
  | addPlatform

/-- The classes of the platform that are added one after the other up to the first failure, with
their names. -/
def platformAdditions (g : Hierarchy) : List PlatformClass → List (BinaryName × ClassId)
  | [] => []
  | p :: ps =>
    match g.addPlatformClass p with
    | .ok g' => (p.name, g.classes.next) :: g'.platformAdditions ps
    | .error _ => []

namespace Call

/-- The hierarchy after a call, also after one that fails. -/
def apply (g : Hierarchy) : Call → Hierarchy
  | addClass data =>
    match g.addClass data with
    | .ok (_, g') => g'
    | .error _ => g
  | addInterface c i => g.addInterface c i
  | addMethod m => (g.addMethod m).2
  | addPlatform => g.addPlatform.1

/-- The classes that a call has added, with their names. -/
def additions (g : Hierarchy) : Call → List (BinaryName × ClassId)
  | addClass data =>
    match g.addClass data with
    | .ok (c, _) => [(data.name, c)]
    | .error _ => []
  | addPlatform => g.platformAdditions PlatformClass.all
  | _ => []

end Call

def applyAll (g : Hierarchy) (calls : List Call) : Hierarchy := calls.foldl Call.apply g

/-- All classes that some calls have added, with their names. -/
def additions (g : Hierarchy) : List Call → List (BinaryName × ClassId)
  | [] => []
  | call :: calls => call.additions g ++ (call.apply g).additions calls

/-- A class is refused exactly if there is one of its name, and then nothing changes. -/
theorem addClass_cases (g : Hierarchy) (data : ClassData) :
    (∃ d, g.lookup data.name = some d ∧ g.addClass data = .error (.duplicateClass data.name) ∧
      (Call.addClass data).apply g = g ∧ (Call.addClass data).additions g = []) ∨
    (g.lookup data.name = none ∧
      g.addClass data = .ok (g.classes.next, { g with classes := g.classes.push data }) ∧
      (Call.addClass data).apply g = { g with classes := g.classes.push data } ∧
      (Call.addClass data).additions g = [(data.name, g.classes.next)]) := by
  cases h : g.lookup data.name with
  | some d =>
    have hadd : g.addClass data = .error (.duplicateClass data.name) := by simp only [addClass, h]
    exact Or.inl ⟨d, rfl, hadd, by simp only [Call.apply, hadd], by
      simp only [Call.additions, hadd]⟩
  | none =>
    have hadd : g.addClass data =
      .ok (g.classes.next, { g with classes := g.classes.push data }) := by simp only [addClass, h]
    exact Or.inr ⟨rfl, hadd, by simp only [Call.apply, hadd], by simp only [Call.additions, hadd]⟩

theorem extends_apply (g : Hierarchy) (call : Call) : g.Extends (call.apply g) := by
  cases call with
  | addClass data =>
    rcases g.addClass_cases data with ⟨-, -, -, h, -⟩ | ⟨-, -, h, -⟩
    · rw [h]
      exact .refl g
    · rw [h]
      exact g.extends_push data
  | addInterface c i => exact g.extends_addInterface c i
  | addMethod m => exact g.extends_addMethod m
  | addPlatform => exact g.extends_tryPlatformClasses _

theorem extends_applyAll (g : Hierarchy) (calls : List Call) : g.Extends (g.applyAll calls) := by
  induction calls generalizing g with
  | nil => exact .refl g
  | cons call calls ih => exact (g.extends_apply call).trans (ih _)

/-! ### Looking up -/

theorem lookup_congr (hmem : ∀ c, c ∈ g'.classes ↔ c ∈ g.classes)
    (hname : ∀ c, (g'.cls c).name = (g.cls c).name) :
    g'.lookup name = g.lookup name := by
  refine Option.ext fun c => ?_
  simp only [lookup_eq_some_iff, hmem, hname]

theorem lookup_push (hnone : g.lookup data.name = none) :
    ({ g with classes := g.classes.push data } : Hierarchy).lookup name = some c ↔
      g.lookup name = some c ∨ name = data.name ∧ c = g.classes.next := by
  have hold : ∀ d ∈ g.classes, ({ g with classes := g.classes.push data } : Hierarchy).cls d =
      g.cls d :=
    fun d hd => cls_push_of_mem data hd
  constructor
  · intro h
    obtain ⟨hmem, hname, hbefore⟩ := lookup_eq_some_iff.1 h
    rcases Table.mem_push.1 hmem with hc | rfl
    · rw [hold c hc] at hname
      refine Or.inl (lookup_eq_some_iff.2 ⟨hc, hname, fun d hd => ?_⟩)
      rw [← hold d (Nat.lt_trans hd hc)]
      exact hbefore d hd
    · rw [cls_push, if_pos rfl] at hname
      exact Or.inr ⟨hname.symm, rfl⟩
  · rintro (h | ⟨rfl, rfl⟩)
    · exact (g.extends_push data).lookup h
    · refine lookup_eq_some_iff.2 ⟨Table.mem_push.2 (Or.inr rfl), ?_, fun d hd => ?_⟩
      · rw [cls_push, if_pos rfl]
      · rw [hold d hd]
        exact lookup_eq_none hnone hd

theorem lookup_tryPlatformClasses (g : Hierarchy) (ps : List PlatformClass) :
    (attemptAll tryPlatformClass g ps).1.lookup name = some c ↔ g.lookup name = some c ∨
      (name, c) ∈ g.platformAdditions ps := by
  induction ps generalizing g with
  | nil => simp [attemptAll, platformAdditions]
  | cons p ps ih =>
    cases h : g.addPlatformClass p with
    | error e => simp [attemptAll, tryPlatformClass, platformAdditions, h]
    | ok g' =>
      obtain ⟨hnone, s, is, -, -, hg'⟩ := addPlatformClass_eq_push h
      have hpush : g'.lookup name = some c ↔ g.lookup name = some c ∨ name = p.name ∧
          c = g.classes.next := by
        rw [hg']
        exact lookup_push hnone
      simp only [attemptAll, tryPlatformClass, platformAdditions, h, ih, hpush, List.mem_cons,
        Prod.mk.injEq, or_assoc]

/-- After a call those classes are found that were found before and those that it has added. -/
theorem lookup_apply (g : Hierarchy) (call : Call) :
    (call.apply g).lookup name = some c ↔ g.lookup name = some c ∨
      (name, c) ∈ call.additions g := by
  cases call with
  | addClass data =>
    rcases g.addClass_cases data with ⟨-, -, -, happly, hadditions⟩ | ⟨hnone, -, happly, hadditions⟩
    · simp [happly, hadditions]
    · rw [happly, hadditions, lookup_push hnone, List.mem_singleton, Prod.mk.injEq]
  | addInterface d i =>
    have hlookup : (g.addInterface d i).lookup name = g.lookup name :=
      lookup_congr (fun _ => mem_addInterface) fun _ => (g.fields_addInterface d i _).1
    simp [Call.apply, Call.additions, hlookup]
  | addMethod m =>
    have hlookup : (g.addMethod m).2.lookup name = g.lookup name := by
      refine lookup_congr (fun _ => mem_addMethod) fun d => ?_
      obtain ⟨methods, hd⟩ := cls_addMethod g m d
      rw [hd]
    simp [Call.apply, Call.additions, hlookup]
  | addPlatform => exact g.lookup_tryPlatformClasses _

theorem lookup_applyAll (g : Hierarchy) (calls : List Call) :
    (g.applyAll calls).lookup name = some c ↔ g.lookup name = some c ∨
      (name, c) ∈ g.additions calls := by
  induction calls generalizing g with
  | nil => simp [applyAll, additions]
  | cons call calls ih =>
    refine (ih (call.apply g)).trans ?_
    rw [lookup_apply, additions, List.mem_append, or_assoc]

end Hierarchy

end JvmLowering
