import JvmLowering.Hierarchy.Basic
import JvmLowering.Proofs.Attempt
import Mathlib.Data.List.TakeWhile

/-!
# Descriptors are read and written alike

The grammar of names and descriptors, without regard to how they are read. A text can be read
exactly if it is in the grammar, each type is read back from its descriptor, and what is read from a
text is written as this text, so that every type has one descriptor.

* `IsName`, `IsField`, `IsMethod`: the grammar;
* `FieldType.read_chars`, `FieldType.chars_of_read`: a type in front of other text;
* `MethodType.readParameters_chars`, `MethodType.chars_of_readParameters`: the list of parameters;
* `DescriptorLaws`, `descriptors_exact`: all laws of reading and writing.
-/

namespace JvmLowering

/-! ### The grammar -/

/-- A part of a name. -/
def IsSegment (s : List Char) : Prop := s ≠ [] ∧ ∀ c ∈ s, c ∉ ['.', ';', '[', '/']

/-- Segments with slashes between them. -/
inductive IsName : List Char → Prop
  | segment {s : List Char} (first : IsSegment s) : IsName s
  | slash {s n : List Char} (first : IsSegment s) (rest : IsName n) : IsName (s ++ '/' :: n)

/-- Descriptors of fields. -/
inductive IsField : List Char → Prop
  | base {c : Char} (letter : c ∈ ['B', 'C', 'D', 'F', 'I', 'J', 'S', 'Z']) : IsField [c]
  | object {n : List Char} (name : IsName n) : IsField ('L' :: (n ++ [';']))
  | array {s : List Char} (element : IsField s) : IsField ('[' :: s)

/-- Descriptors of fields, one after another. -/
inductive IsParameters : List Char → Prop
  | nil : IsParameters []
  | cons {s t : List Char} (first : IsField s) (rest : IsParameters t) : IsParameters (s ++ t)

/-- Descriptors of methods. -/
inductive IsMethod : List Char → Prop
  | void {p : List Char} (parameters : IsParameters p) : IsMethod ('(' :: (p ++ [')', 'V']))
  | result {p s : List Char} (parameters : IsParameters p) (result : IsField s) :
      IsMethod ('(' :: (p ++ ')' :: s))

/-! ### Names -/

theorem segmentError?_eq_none_iff {whole : String} {s : List Char} :
    segmentError? whole s = none ↔ IsSegment s := by
  cases s with
  | nil => simp [segmentError?, IsSegment]
  | cons c s => simp [segmentError?, IsSegment, isReserved, and_assoc]

theorem segments_of_notMem {s : List Char} (h : '/' ∉ s) : segments s = [s] := by
  induction s with
  | nil => rfl
  | cons c s ih =>
    rw [List.mem_cons, not_or] at h
    rw [segments, if_neg (Ne.symm h.1), ih h.2]

theorem segments_slash {s : List Char} (h : '/' ∉ s) (n : List Char) :
    segments (s ++ '/' :: n) = s :: segments n := by
  induction s with
  | nil => simp [segments]
  | cons c s ih =>
    rw [List.mem_cons, not_or] at h
    rw [List.cons_append, segments, if_neg (Ne.symm h.1), ih h.2]

theorem IsSegment.slash_notMem {s : List Char} (h : IsSegment s) : '/' ∉ s :=
  fun hs => h.2 _ hs (by simp)

theorem isName_iff {l : List Char} : IsName l ↔ ∀ s ∈ segments l, IsSegment s := by
  constructor
  · intro h
    induction h with
    | segment first =>
      rw [segments_of_notMem first.slash_notMem]
      simpa using first
    | slash first _ ih =>
      rw [segments_slash first.slash_notMem]
      simpa using ⟨first, ih⟩
  · -- the first slash divides the text into a segment and a shorter text
    intro h
    induction hlength : l.length using Nat.strong_induction_on generalizing l with
    | _ n ih =>
      by_cases hslash : '/' ∈ l
      · obtain ⟨s, n, rfl, hs⟩ := List.eq_append_cons_of_mem hslash
        rw [segments_slash hs, List.forall_mem_cons] at h
        refine .slash h.1 (ih _ ?_ h.2 rfl)
        rw [← hlength, List.length_append, List.length_cons]
        omega
      · rw [segments_of_notMem hslash] at h
        exact .segment (h l (List.mem_singleton.2 rfl))

/-- No name has a semicolon. -/
theorem IsName.semicolon_notMem {n : List Char} (h : IsName n) : ';' ∉ n := by
  have hsegment : ∀ {s : List Char}, IsSegment s → ';' ∉ s := fun h hs => h.2 _ hs (by simp)
  induction h with
  | segment first => exact hsegment first
  | slash first _ ih => simp [hsegment first, ih]

namespace BinaryName

theorem error?_eq_none_iff {text : String} : error? text = none ↔ IsName text.toList := by
  simp only [error?, List.findSome?_eq_none_iff, segmentError?_eq_none_iff, isName_iff]

theorem isName (c : BinaryName) : IsName c.text.toList := error?_eq_none_iff.1 c.wellFormed

theorem ofString_eq_ok_iff {text : String} {c : BinaryName} :
    ofString text = .ok c ↔ c.text = text := by
  obtain ⟨name, hname⟩ := c
  unfold ofString
  split
  · simp [eq_comm]
  · rename_i e he
    refine ⟨fun h => by simp at h, ?_⟩
    rintro rfl
    simp [hname] at he

end BinaryName

/-! ### Types of fields -/

namespace BaseType

theorem letter_of_ofLetter? {c : Char} {b : BaseType} (h : ofLetter? c = some b) :
    b.letter = c := by
  unfold ofLetter? at h
  split at h <;> cases h <;> rfl

theorem letter_mem (b : BaseType) : b.letter ∈ ['B', 'C', 'D', 'F', 'I', 'J', 'S', 'Z'] := by
  cases b <;> decide

theorem exists_letter {c : Char} (h : c ∈ ['B', 'C', 'D', 'F', 'I', 'J', 'S', 'Z']) :
    ∃ b : BaseType, b.letter = c := by
  simp only [List.mem_cons, List.not_mem_nil, or_false] at h
  rcases h with rfl | rfl | rfl | rfl | rfl | rfl | rfl | rfl
  exacts [⟨byte, rfl⟩, ⟨char, rfl⟩, ⟨double, rfl⟩, ⟨float, rfl⟩, ⟨int, rfl⟩, ⟨long, rfl⟩,
    ⟨short, rfl⟩, ⟨boolean, rfl⟩]

end BaseType

namespace Element

/-- The first character of an element is none of those that stand between elements. -/
theorem chars_ne {C : Type} (name : C → String) (e : Element C) :
    ∃ c cs, e.chars name = c :: cs ∧ c ≠ '[' ∧ c ≠ ')' := by
  cases e with
  | base b => exact ⟨b.letter, [], rfl, by cases b <;> decide, by cases b <;> decide⟩
  | cls c => exact ⟨'L', _, rfl, by decide, by decide⟩

theorem read_chars (whole : List Char) (e : Element BinaryName) (rest : List Char) :
    Element.read whole (e.chars BinaryName.text ++ rest) = .ok (e, rest) := by
  cases e with
  | base b =>
    cases b <;> rfl
  | cls c =>
    have hname : ∀ x ∈ c.text.toList, (x != ';') = true := by
      intro x hx
      rw [bne_iff_ne]
      rintro rfl
      exact c.isName.semicolon_notMem hx
    have htake : (c.text.toList ++ ';' :: rest).takeWhile (· != ';') = c.text.toList := by
      rw [List.takeWhile_append_of_pos hname]
      simp
    have hdrop : (c.text.toList ++ ';' :: rest).dropWhile (· != ';') = ';' :: rest := by
      rw [List.dropWhile_append_of_pos hname]
      simp
    have hok : BinaryName.ofString c.text = .ok c := BinaryName.ofString_eq_ok_iff.2 rfl
    simp [chars, Element.read, htake, hdrop, hok]

theorem chars_of_read {whole text rest : List Char} {e : Element BinaryName}
    (h : Element.read whole text = .ok (e, rest)) :
    text = e.chars BinaryName.text ++ rest := by
  revert h
  fun_cases Element.read whole text with
  | case1 => simp
  | case2 => simp
  | case3 body c tail hdrop name hname =>
    simp only [Except.ok.injEq, Prod.mk.injEq, and_imp]
    rintro rfl rfl
    have hsplit := List.takeWhile_append_dropWhile (p := (· != ';')) (l := body)
    have hc : c = ';' := by
      have hhead := List.head?_dropWhile_not (· != ';') body
      simpa [hdrop] using hhead
    rw [hdrop, hc] at hsplit
    have htext : name.text.toList = body.takeWhile (· != ';') := by
      rw [BinaryName.ofString_eq_ok_iff.1 hname, String.toList_ofList]
    rw [chars, htext, List.cons_append, List.append_assoc, List.singleton_append, hsplit]
  | case4 => simp
  | case5 c tail _ b hb =>
    simp only [Except.ok.injEq, Prod.mk.injEq, and_imp]
    rintro rfl rfl
    rw [chars, BaseType.letter_of_ofLetter? hb]
    rfl
  | case6 => simp

end Element

namespace FieldType

theorem ofElement_eq {C : Type} (t : FieldType C) : ofElement t.dims t.element = t := by
  rcases t with b | c | ⟨extra, e⟩ <;> rfl

theorem chars_ofElement {C : Type} (name : C → String) (dims : Nat) (e : Element C) :
    (ofElement dims e).chars name = List.replicate dims '[' ++ e.chars name := by
  cases dims with
  | zero => cases e <;> rfl
  | succ extra => rfl

theorem chars_eq {C : Type} (name : C → String) (t : FieldType C) :
    t.chars name = List.replicate t.dims '[' ++ t.element.chars name := by
  rw [← chars_ofElement, ofElement_eq]

theorem chars_arrayOf {C : Type} (name : C → String) (t : FieldType C) :
    (FieldType.ref t.arrayOf).chars name = '[' :: t.chars name := by
  rcases t with b | c | ⟨extra, e⟩ <;> rfl

/-- A type is read off the front of a text that begins with its descriptor. -/
theorem read_chars (t : FieldType BinaryName) (rest : List Char) :
    FieldType.read (t.chars BinaryName.text ++ rest) = .ok (t, rest) := by
  obtain ⟨c, cs, helement, hc, -⟩ := t.element.chars_ne BinaryName.text
  have hbrackets : ∀ x ∈ List.replicate t.dims '[', (x == '[') = true := by
    intro x hx
    rw [List.eq_of_mem_replicate hx]
    rfl
  have htake : (t.chars BinaryName.text ++ rest).takeWhile
      (· == '[') = List.replicate t.dims '[' := by
    rw [chars_eq, List.append_assoc, List.takeWhile_append_of_pos hbrackets, helement]
    simp [hc]
  have hdrop : (t.chars BinaryName.text ++ rest).dropWhile
      (· == '[') = t.element.chars BinaryName.text ++ rest := by
    rw [chars_eq, List.append_assoc, List.dropWhile_append_of_pos hbrackets, helement]
    simp [hc]
  rw [FieldType.read, htake, hdrop, Element.read_chars]
  simp [ofElement_eq]

theorem chars_of_read {text rest : List Char} {t : FieldType BinaryName}
    (h : FieldType.read text = .ok (t, rest)) :
    text = t.chars BinaryName.text ++ rest := by
  unfold FieldType.read at h
  split at h
  · rename_i e tail he
    simp only [Except.ok.injEq, Prod.mk.injEq] at h
    obtain ⟨rfl, rfl⟩ := h
    have hbrackets :
        text.takeWhile (· == '[') = List.replicate (text.takeWhile (· == '[')).length '[' := by
      rw [List.eq_replicate_iff]
      refine ⟨rfl, fun c hc => ?_⟩
      exact eq_of_beq (List.mem_takeWhile_imp (p := (· == '[')) hc)
    rw [chars_ofElement, ← hbrackets, List.append_assoc, ← Element.chars_of_read he]
    exact List.takeWhile_append_dropWhile.symm
  · simp at h

theorem ofChars_eq_ok_iff {text : List Char} {t : FieldType BinaryName} :
    FieldType.ofChars text = .ok t ↔ t.chars BinaryName.text = text := by
  constructor
  · intro h
    unfold FieldType.ofChars at h
    split at h
    · rename_i hread
      rw [← Except.ok.inj h, chars_of_read hread, List.append_nil]
    · simp at h
    · simp at h
  · rintro rfl
    have hread := read_chars t []
    rw [List.append_nil] at hread
    rw [FieldType.ofChars, hread]

/-- The descriptors of the grammar are those of types. -/
theorem isField_iff {s : List Char} :
    IsField s ↔ ∃ t : FieldType BinaryName, t.chars BinaryName.text = s := by
  constructor
  · intro h
    induction h with
    | base letter =>
      obtain ⟨b, hb⟩ := BaseType.exists_letter letter
      exact ⟨.base b, by rw [chars, hb]⟩
    | @object n name =>
      have hname : BinaryName.error? (String.ofList n) = none := by
        rw [BinaryName.error?_eq_none_iff, String.toList_ofList]
        exact name
      exact ⟨object ⟨String.ofList n, hname⟩, by simp [object, chars, RefType.chars, Element.chars]⟩
    | array _ ih =>
      obtain ⟨t, rfl⟩ := ih
      exact ⟨_, chars_arrayOf BinaryName.text t⟩
  · rintro ⟨t, rfl⟩
    rw [chars_eq]
    induction t.dims with
    | zero =>
      cases t.element with
      | base b => exact .base b.letter_mem
      | cls c => exact .object c.isName
    | succ n ih => exact .array ih

end FieldType

/-! ### Types of methods -/

namespace MethodType

open FieldType

theorem head?_chars_ne (t : FieldType BinaryName) (rest : List Char) :
    (t.chars BinaryName.text ++ rest).head? ≠ some ')' := by
  obtain ⟨c, cs, helement, -, hc⟩ := t.element.chars_ne BinaryName.text
  rw [chars_eq, helement]
  cases t.dims with
  | zero => simpa using hc
  | succ n => simp [List.replicate_succ]

theorem readParameters_chars (ts : List (FieldType BinaryName)) (rest : List Char) :
    readParameters (ts.flatMap (FieldType.chars BinaryName.text) ++ ')' :: rest) =
      .ok (ts, rest) := by
  induction ts with
  | nil =>
    rw [readParameters]
    simp
  | cons t ts ih =>
    rw [readParameters, List.flatMap_cons, List.append_assoc, if_neg (head?_chars_ne t _)]
    split
    · rename_i e hread
      simp [read_chars] at hread
    · rename_i t' rest' hread
      rw [read_chars] at hread
      obtain ⟨rfl, rfl⟩ := Prod.mk.inj (Except.ok.inj hread)
      simp [ih]

theorem chars_of_readParameters {text rest : List Char} {ts : List (FieldType BinaryName)}
    (h : readParameters text = .ok (ts, rest)) :
    text = ts.flatMap (FieldType.chars BinaryName.text) ++ ')' :: rest := by
  fun_induction readParameters text generalizing ts rest with
  | case1 text hhead =>
    obtain ⟨rfl, rfl⟩ := Prod.mk.inj (Except.ok.inj h)
    cases text with
    | nil => simp at hhead
    | cons c cs => simpa using hhead
  | case2 => simp at h
  | case3 => simp at h
  | case4 text hhead t tail hread _ ts' after hrest ih =>
    obtain ⟨rfl, rfl⟩ := Prod.mk.inj (Except.ok.inj h)
    rw [chars_of_read hread, ih hrest, List.flatMap_cons, List.append_assoc]

theorem isParameters_iff {s : List Char} :
    IsParameters s ↔ ∃ ts : List (FieldType BinaryName),
      ts.flatMap (FieldType.chars BinaryName.text) = s := by
  constructor
  · intro h
    induction h with
    | nil => exact ⟨[], rfl⟩
    | cons first _ ih =>
      obtain ⟨t, rfl⟩ := isField_iff.1 first
      obtain ⟨ts, rfl⟩ := ih
      exact ⟨t :: ts, List.flatMap_cons⟩
  · rintro ⟨ts, rfl⟩
    induction ts with
    | nil => exact .nil
    | cons t ts ih =>
      rw [List.flatMap_cons]
      exact .cons (isField_iff.2 ⟨t, rfl⟩) ih

/-- The loop over the parameters is left in front of a parenthesis or with an error. -/
theorem readParameters_ok_iff {text rest : List Char} :
    (∃ ts, readParameters text = .ok (ts, rest)) ↔
      ∃ p, IsParameters p ∧ text = p ++ ')' :: rest := by
  constructor
  · rintro ⟨ts, h⟩
    exact ⟨_, isParameters_iff.2 ⟨ts, rfl⟩, chars_of_readParameters h⟩
  · rintro ⟨p, hp, rfl⟩
    obtain ⟨ts, rfl⟩ := isParameters_iff.1 hp
    exact ⟨ts, readParameters_chars ts rest⟩

/-- No type is written like the missing result of a method. -/
theorem chars_ne_void (t : FieldType BinaryName) : t.chars BinaryName.text ≠ ['V'] := by
  rcases t with b | c | ⟨extra, e⟩
  · cases b <;> decide
  · simp [FieldType.chars, RefType.chars, Element.chars]
  · simp [FieldType.chars, RefType.chars, List.replicate_succ]

theorem ofChars_eq_ok_iff {text : List Char} {m : MethodType BinaryName} :
    MethodType.ofChars text = .ok m ↔ m.chars BinaryName.text = text := by
  constructor
  · intro h
    unfold MethodType.ofChars at h
    split at h
    -- no result after the parameters, or one that is read
    · split at h
      · simp at h
      · rename_i parameters hread
        rw [← Except.ok.inj h, chars_of_readParameters hread]
        rfl
      · rename_i parameters rest hread
        split at h
        · rename_i t ht
          rw [← Except.ok.inj h, chars_of_readParameters hread, ← FieldType.ofChars_eq_ok_iff.1 ht]
          rfl
        · simp at h
    · simp at h
  · rintro rfl
    obtain ⟨parameters, result⟩ := m
    simp only [MethodType.chars, MethodType.ofChars, readParameters_chars]
    cases result with
    | none => rfl
    | some t =>
      have hresult : FieldType.ofChars (t.chars BinaryName.text) = .ok t :=
        FieldType.ofChars_eq_ok_iff.2 rfl
      -- the result is read as a type, since no type is written like a missing result
      split
      · rename_i heq
        simp at heq
      · rename_i heq
        simp only [Except.ok.injEq, Prod.mk.injEq] at heq
        exact absurd heq.2 (chars_ne_void t)
      · rename_i heq
        simp only [Except.ok.injEq, Prod.mk.injEq] at heq
        obtain ⟨rfl, rfl⟩ := heq
        rw [hresult]

theorem isMethod_iff {s : List Char} :
    IsMethod s ↔ ∃ m : MethodType BinaryName, m.chars BinaryName.text = s := by
  constructor
  · intro h
    cases h with
    | void parameters =>
      obtain ⟨ts, rfl⟩ := isParameters_iff.1 parameters
      exact ⟨⟨ts, none⟩, rfl⟩
    | result parameters result =>
      obtain ⟨ts, rfl⟩ := isParameters_iff.1 parameters
      obtain ⟨t, rfl⟩ := isField_iff.1 result
      exact ⟨⟨ts, some t⟩, rfl⟩
  · rintro ⟨⟨ts, result⟩, rfl⟩
    have hparameters := isParameters_iff.2 ⟨ts, rfl⟩
    cases result with
    | none => exact .void hparameters
    | some t => exact .result hparameters (isField_iff.2 ⟨t, rfl⟩)

end MethodType

/-! ### Resolved types -/

section Traverse

variable {C D ε : Type} {f : C → Except ε D} {name : C → String} {name' : D → String}

theorem Element.chars_cls (hf : ∀ c d, f c = .ok d → name' d = name c) {c : C} {d : D}
    (h : f c = .ok d) :
    (Element.cls d).chars name' = (Element.cls c).chars name := by
  rw [chars, chars, hf c d h]

theorem RefType.chars_traverse (hf : ∀ c d, f c = .ok d → name' d = name c) {r : RefType C}
    {r' : RefType D} (h : r.traverse f = .ok r') : r'.chars name' = r.chars name := by
  rcases r with c | ⟨extra, b | c⟩
  · obtain ⟨d, hd, heq⟩ := bind_eq_ok h
    rw [← Except.ok.inj heq]
    exact Element.chars_cls hf hd
  · rw [← Except.ok.inj h]
    rfl
  · obtain ⟨d, hd, heq⟩ := bind_eq_ok h
    rw [← Except.ok.inj heq]
    exact congrArg (List.replicate (extra + 1) '[' ++ ·) (Element.chars_cls hf hd)

theorem FieldType.chars_traverse (hf : ∀ c d, f c = .ok d → name' d = name c) {t : FieldType C}
    {t' : FieldType D} (h : t.traverse f = .ok t') : t'.chars name' = t.chars name := by
  cases t with
  | base b =>
    rw [← Except.ok.inj h]
    rfl
  | ref r =>
    obtain ⟨r', hr, heq⟩ := bind_eq_ok h
    rw [← Except.ok.inj heq]
    exact RefType.chars_traverse hf hr

theorem MethodType.chars_parameters (hf : ∀ c d, f c = .ok d → name' d = name c)
    {ts : List (FieldType C)} {ts' : List (FieldType D)}
    (h : ts.mapM (FieldType.traverse f) = .ok ts') :
    ts'.flatMap (FieldType.chars name') = ts.flatMap (FieldType.chars name) := by
  induction ts generalizing ts' with
  | nil =>
    rw [← Except.ok.inj h]
    rfl
  | cons t ts ih =>
    rw [List.mapM_cons] at h
    obtain ⟨t₁, ht, h⟩ := bind_eq_ok h
    obtain ⟨ts₁, hts, h⟩ := bind_eq_ok h
    rw [← Except.ok.inj h, List.flatMap_cons, List.flatMap_cons,
      FieldType.chars_traverse hf ht, ih hts]

theorem MethodType.chars_traverse (hf : ∀ c d, f c = .ok d → name' d = name c) {m : MethodType C}
    {m' : MethodType D} (h : m.traverse f = .ok m') : m'.chars name' = m.chars name := by
  obtain ⟨parameters, result⟩ := m
  obtain ⟨ts, hts, h⟩ := bind_eq_ok h
  cases result with
  | none =>
    rw [← Except.ok.inj h, chars, chars, MethodType.chars_parameters hf hts]
  | some t =>
    obtain ⟨t', ht, h⟩ := bind_eq_ok h
    rw [← Except.ok.inj h, chars, chars, MethodType.chars_parameters hf hts]
    simp only [FieldType.chars_traverse hf ht]

end Traverse

namespace Hierarchy

/-- A name is resolved to the class of this name. -/
theorem className_of_resolve (g : Hierarchy) (name : BinaryName) (c : ClassId)
    (h : g.resolve name = .ok c) :
    g.className c = name.text := by
  unfold resolve at h
  split at h
  · rename_i hlookup
    rw [← Except.ok.inj h]
    have hname := List.find?_some hlookup
    exact congrArg BinaryName.text (of_decide_eq_true hname)
  · simp at h

end Hierarchy

/-! ### All laws -/

/-- How descriptors are read, written and resolved. -/
structure DescriptorLaws : Prop where
  /-- The names that are accepted are those of the grammar, and they stay as they are. -/
  name : ∀ s, (∃ c, BinaryName.ofString s = .ok c ∧ c.text = s) ↔ IsName s.toList
  /-- A type is read back from its descriptor. -/
  field_read : ∀ t : FieldType BinaryName, FieldType.ofDescriptor (t.render BinaryName.text) = .ok t
  method_read : ∀ m : MethodType BinaryName,
    MethodType.ofDescriptor (m.render BinaryName.text) = .ok m
  /-- What is read from a text is written as this text. -/
  field_written : ∀ s t, FieldType.ofDescriptor s = .ok t → t.render BinaryName.text = s
  method_written : ∀ s m, MethodType.ofDescriptor s = .ok m → m.render BinaryName.text = s
  /-- The texts that can be read are those of the grammar. -/
  field_accepted : ∀ s, (∃ t, FieldType.ofDescriptor s = .ok t) ↔ IsField s.toList
  method_accepted : ∀ s, (∃ m, MethodType.ofDescriptor s = .ok m) ↔ IsMethod s.toList
  /-- Each turn of the loop over the parameters leaves a shorter end of the text, so the loop ends.
  It is left with an error or in front of a parenthesis, which can be cut off. -/
  turn : ∀ text t rest, FieldType.read text = .ok (t, rest) → rest <:+ text ∧
    rest.length < text.length
  loop : ∀ text rest, (∃ ts, MethodType.readParameters text = .ok (ts, rest)) ↔
    ∃ p, IsParameters p ∧ text = p ++ ')' :: rest
  /-- A type whose classes have been resolved is still written as the text that it was read from. -/
  field_resolved : ∀ (g : Hierarchy) s t, g.fieldType s = .ok t → t.render g.className = s
  method_resolved : ∀ (g : Hierarchy) s m, g.methodType s = .ok m → m.render g.className = s

/-- **Reading and writing descriptors are inverse to each other**, and exactly the texts of the
grammar can be read. -/
theorem descriptors_exact : DescriptorLaws where
  name s := by
    rw [← BinaryName.error?_eq_none_iff]
    constructor
    · rintro ⟨c, -, rfl⟩
      exact c.wellFormed
    · exact fun h => ⟨⟨s, h⟩, BinaryName.ofString_eq_ok_iff.2 rfl, rfl⟩
  field_read t := by
    rw [FieldType.ofDescriptor, FieldType.ofChars_eq_ok_iff, FieldType.render, String.toList_ofList]
  method_read m := by
    rw [MethodType.ofDescriptor, MethodType.ofChars_eq_ok_iff, MethodType.render,
      String.toList_ofList]
  field_written s t h := by
    rw [FieldType.render, FieldType.ofChars_eq_ok_iff.1 h, String.ofList_toList]
  method_written s m h := by
    rw [MethodType.render, MethodType.ofChars_eq_ok_iff.1 h, String.ofList_toList]
  field_accepted s := by
    simp only [FieldType.ofDescriptor, FieldType.ofChars_eq_ok_iff, FieldType.isField_iff]
  method_accepted s := by
    simp only [MethodType.ofDescriptor, MethodType.ofChars_eq_ok_iff, MethodType.isMethod_iff]
  turn text t rest h := ⟨⟨_, (FieldType.chars_of_read h).symm⟩, FieldType.length_read_lt h⟩
  loop text rest := MethodType.readParameters_ok_iff
  -- resolving names does not change how a type is written
  field_resolved g s t h := by
    unfold Hierarchy.fieldType at h
    split at h
    · rename_i t₀ hread
      rw [FieldType.render, FieldType.chars_traverse g.className_of_resolve h,
        FieldType.ofChars_eq_ok_iff.1 hread, String.ofList_toList]
    · simp at h
  method_resolved g s m h := by
    unfold Hierarchy.methodType at h
    split at h
    · rename_i m₀ hread
      rw [MethodType.render, MethodType.chars_traverse g.className_of_resolve h,
        MethodType.ofChars_eq_ok_iff.1 hread, String.ofList_toList]
    · simp at h

end JvmLowering
