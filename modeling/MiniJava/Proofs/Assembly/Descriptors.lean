import MiniJava.Assembly.ClassScope
import MiniJava.Proofs.Code.UnitText

/-! The names and the descriptors of assembly text. No descriptor begins with another one, so those of
several parameters can stand side by side without a sign between them. -/

namespace MiniJava.Code

/-- The class whose name stands in the descriptor of a type. An array has the one of its items. -/
def Ty.className? : Ty → Option String
  | .object className => some className
  | .array element => element.className?
  | .int32 | .boolean | .string | .void => none

end MiniJava.Code

namespace MiniJava.Assembly

open Code (ClassUnit Ty)

/-- Whether a sign may stand in a name. The signs that are left out are those that end a name or part it
from what follows. -/
def isNameChar (c : Char) : Bool := !c.isWhitespace && c ∉ ['/', ':', ';', '(', ')']

/-- The name of a label or of a member, or one segment of the name of a class. It is not empty, so that a
text in which it stands can be cut behind it. -/
def isSimpleName (s : String) : Bool := s ≠ "" && s.toList.all isNameChar

/-- The internal name of a class: what may stand in simple names, and slashes. Two slashes may meet, as
they do where the name of an import has two dots in a row. -/
def isClassName (s : String) : Bool := s.toList.all fun c => isNameChar c || c = '/'

/-- What is a simple name has only signs of names in it; that it is not empty is left out here. -/
theorem isNameChar_of_isSimpleName {s : String} (h : isSimpleName s = true) :
    ∀ c ∈ s.toList, isNameChar c = true :=
  List.all_eq_true.mp (Bool.and_eq_true_iff.mp h).2

/-- Simple names hold none of the signs that stand between names in the text, so a text is cut at the
first of these. -/
theorem not_mem_of_isSimpleName {s : String} {c : Char} (h : isSimpleName s = true)
    (hc : isNameChar c = false) : c ∉ s.toList := by
  intro hMem
  have hPart := isNameChar_of_isSimpleName h c hMem
  exact Bool.false_ne_true (hc.symm.trans hPart)

/-- The name of a class holds none of the signs that stand between names either, but for slashes. -/
theorem not_mem_of_isClassName {s : String} {c : Char} (h : isClassName s = true)
    (hc : isNameChar c = false) (hSlash : c ≠ '/') : c ∉ s.toList := by
  intro hMem
  have hPart := List.all_eq_true.mp h c hMem
  simp [hc, hSlash] at hPart

/-- Simple names with a slash between each two are the name of a class. -/
theorem isClassName_intercalate {names : List String}
    (h : ∀ name ∈ names, isSimpleName name = true) :
    isClassName (String.intercalate "/" names) = true := by
  refine List.all_eq_true.mpr fun c hc => ?_
  rw [String.toList_intercalate] at hc
  rcases Code.mem_intercalate hc with rfl | ⟨l, hl, hMem⟩
  · rfl
  · obtain ⟨name, hName, rfl⟩ := List.mem_map.mp hl
    rw [isNameChar_of_isSimpleName (h name hName) c hMem, Bool.true_or]

/-- Spelling a name with slashes in place of dots brings in no sign that class names may not have. -/
theorem isClassName_slashed {s : String} (h : isClassName s = true) :
    isClassName (slashed s) = true := by
  refine List.all_eq_true.mpr fun c hc => ?_
  rw [slashed, String.toList_ofList] at hc
  obtain ⟨d, hd, rfl⟩ := List.mem_map.mp hc
  split
  · rfl
  · exact List.all_eq_true.mp h d hd

/-- A class that imports only class names refers to a class by a class name, whether it is the class
itself, an import or neither. -/
theorem isClassName_qualify {unit : ClassUnit} {name : String}
    (hImports : ∀ path ∈ unit.imports, isClassName path = true) (hName : isClassName name = true) :
    isClassName (qualify unit name) = true := by
  rw [qualify]
  split
  · exact hName
  · apply isClassName_slashed
    cases hImport : importOf? unit.imports name with
    | none => exact hName
    | some path => exact hImports path (List.mem_of_find?_eq_some hImport)

/-- What a class spells for a type. A class that the type mentions has a class name there, which may come
from an import. -/
def IsDescriptor (s : String) : Prop :=
  ∃ (scope : ClassScope) (ty : Ty),
    (∀ name ∈ ty.className?, isClassName (qualify scope.unit name) = true) ∧ s = scope.descriptor ty

/-- The grammar of descriptors: a letter, a class name up to a semicolon, or a bracket and a descriptor.
The first sign tells which of them it is. -/
inductive Describes : List Char → Prop
  | basic {c : Char} (h : c ∈ ['I', 'Z', 'V']) : Describes [c]
  | object {name : List Char} (h : ∀ c ∈ name, c ≠ ';' ∧ c ≠ ':') :
      Describes ('L' :: (name ++ [';']))
  | array {element : List Char} (h : Describes element) : Describes ('[' :: element)

/-- The descriptor of objects of a class ends with its semicolon, since the name of the class has
none. -/
theorem describes_object {s : String} (h : isClassName s = true) :
    Describes ("L" ++ s ++ ";").toList := by
  have hSigns : ∀ c ∈ s.toList, c ≠ ';' ∧ c ≠ ':' := by
    intro c hc
    constructor
    · rintro rfl
      exact not_mem_of_isClassName h (by decide) (by decide) hc
    · rintro rfl
      exact not_mem_of_isClassName h (by decide) (by decide) hc
  rw [String.toList_append, String.toList_append]
  exact .object hSigns

/-- Whatever a class spells for a type follows the grammar of descriptors, provided that the classes in
the type have class names. Arrays are descriptors by those of their items. -/
theorem describes_descriptor {scope : ClassScope} {ty : Ty}
    (h : ∀ name ∈ ty.className?, isClassName (qualify scope.unit name) = true) :
    Describes (scope.descriptor ty).toList := by
  induction ty with
  | int32 | boolean | void =>
      rw [ClassScope.descriptor]
      exact .basic (by decide)
  | string => exact describes_object (by decide)
  | object className => exact describes_object (h className rfl)
  | array element ih =>
      rw [ClassScope.descriptor, String.toList_append]
      exact .array (ih h)

/-- Being spelt for a type by some class is enough: the grammar does not ask for the class or the
type. -/
theorem IsDescriptor.describes {s : String} (h : IsDescriptor s) : Describes s.toList := by
  obtain ⟨scope, ty, hNames, rfl⟩ := h
  exact describes_descriptor hNames

namespace Describes

variable {d d' r s : List Char}

theorem no_colon (h : Describes d) : ':' ∉ d := by
  induction h with
  | basic h =>
      intro hMem
      obtain rfl := List.mem_singleton.mp hMem
      exact absurd h (by decide)
  | object h =>
      intro hMem
      rcases List.mem_append.mp ((List.mem_cons.mp hMem).resolve_left (by decide)) with hName | hEnd
      · exact (h ':' hName).2 rfl
      · exact absurd hEnd (by decide)
  | array _ ih => exact fun hMem => ih ((List.mem_cons.mp hMem).resolve_left (by decide))

/-- Every descriptor has a first sign, which closes no list of parameters. So the end of the list is seen
when it is come to. -/
theorem exists_head (h : Describes d) : ∃ c rest, d = c :: rest ∧ c ≠ ')' := by
  cases h with
  | basic h => exact ⟨_, [], rfl, fun hSame => absurd (hSame ▸ h) (by decide)⟩
  | object => exact ⟨'L', _, rfl, by decide⟩
  | array => exact ⟨'[', _, rfl, by decide⟩

/-- Texts that begin with descriptors are the same only if the descriptors are, and what stands behind
them: no descriptor goes on where another one ends. -/
theorem unambiguous (h : Describes d) (h' : Describes d') (hText : d ++ r = d' ++ s) :
    d = d' ∧ r = s := by
  have hBasic {c e : Char} {u w : List Char} (hc : c ∈ ['I', 'Z', 'V']) (he : e ∉ ['I', 'Z', 'V'])
      (hSame : c :: u = e :: w) : False :=
    he ((List.cons.inj hSame).1 ▸ hc)
  induction h generalizing d' with
  | basic hc =>
      cases h' with
      | basic => exact List.append_inj hText rfl
      | object | array => exact (hBasic hc (by decide) hText).elim
  | @object name hName =>
      cases h' with
      | basic hc => exact (hBasic hc (by decide) hText.symm).elim
      | array => cases (List.cons.inj hText).1
      | @object name' hName' =>
          -- The name goes on up to its semicolon, whatever stands behind.
          have hTail : name ++ ';' :: r = name' ++ ';' :: s := by
            simpa using (List.cons.inj hText).2
          obtain ⟨rfl, hRest⟩ := span_unique (p := (· ≠ ';')) (fun c hc => (hName c hc).1)
            (fun c hc => (hName' c hc).1) (by simp) (by simp) hTail
          exact ⟨rfl, (List.cons.inj hRest).2⟩
  | array _ ih =>
      cases h' with
      | basic hc => exact (hBasic hc (by decide) hText.symm).elim
      | object => cases (List.cons.inj hText).1
      | array h' =>
          obtain ⟨rfl, hRest⟩ := ih h' (List.cons.inj hText).2
          exact ⟨rfl, hRest⟩

end Describes

/-- Lists of descriptors with a closing parenthesis behind each are the same if their texts are. -/
theorem parameters_unambiguous {ps qs : List String} {r s : List Char}
    (hp : ∀ p ∈ ps, IsDescriptor p) (hq : ∀ q ∈ qs, IsDescriptor q)
    (h : ps.flatMap String.toList ++ ')' :: r = qs.flatMap String.toList ++ ')' :: s) :
    ps = qs ∧ r = s := by
  have hOpen {d : String} {t u w : List Char} (hd : IsDescriptor d) :
      d.toList ++ t ++ u ≠ ')' :: w := by
    obtain ⟨c, rest, hHead, hc⟩ := hd.describes.exists_head
    rw [hHead]
    exact fun hSame => hc (List.cons.inj hSame).1
  induction ps generalizing qs with
  | nil =>
      cases qs with
      | nil => exact ⟨rfl, (List.cons.inj h).2⟩
      | cons q qs => exact (hOpen (hq q List.mem_cons_self) h.symm).elim
  | cons p ps ih =>
      cases qs with
      | nil => exact (hOpen (hp p List.mem_cons_self) h).elim
      | cons q qs =>
          obtain ⟨hFirst, hRest⟩ := List.forall_mem_cons.mp hp
          obtain ⟨hFirst', hRest'⟩ := List.forall_mem_cons.mp hq
          rw [List.flatMap_cons, List.flatMap_cons, List.append_assoc, List.append_assoc] at h
          obtain ⟨hSame, hTail⟩ := hFirst.describes.unambiguous hFirst'.describes h
          obtain ⟨rfl, rfl⟩ := ih hRest hRest' hTail
          exact ⟨congrArg (· :: ps) (String.toList_inj.mp hSame), rfl⟩

end MiniJava.Assembly

namespace MiniJava.Stack

open Assembly

attribute [ext] FieldRef MethodRef

/-- A reference to a field in which every part is what it stands for: the name of a class, a simple name
and a descriptor. -/
structure FieldRef.Formed (field : FieldRef) : Prop where
  className : isClassName field.className = true
  name : isSimpleName field.name = true
  descriptor : IsDescriptor field.descriptor

/-- A reference to a method in which every part is what it stands for. Parameters are any number of
descriptors. -/
structure MethodRef.Formed (method : MethodRef) : Prop where
  className : isClassName method.className = true
  name : isSimpleName method.name = true
  parameters : ∀ p ∈ method.parameters, IsDescriptor p
  result : IsDescriptor method.result

/-- The class and the name of a member hold none of the signs that no name holds, but slashes. -/
theorem member_plain {c m : String} {d : Char} (hc : isClassName c = true) (hm : isSimpleName m = true)
    (hd : isNameChar d = false) (hSlash : d ≠ '/') : d ∉ c.toList ++ '/' :: m.toList := by
  intro hMem
  rcases List.mem_append.mp hMem with hClass | hMember
  · exact not_mem_of_isClassName hc hd hSlash hClass
  · exact not_mem_of_isSimpleName hm hd ((List.mem_cons.mp hMember).resolve_left hSlash)

/-- A member and its class end at the first sign that no name holds; the last slash before it stands
between the two. -/
theorem member_unambiguous {c c' m m' : String} {d : Char} {r s : List Char}
    (hd : isNameChar d = false) (hSlash : d ≠ '/') (hc : isClassName c = true)
    (hc' : isClassName c' = true) (hm : isSimpleName m = true) (hm' : isSimpleName m' = true)
    (h : (c.toList ++ '/' :: m.toList) ++ d :: r = (c'.toList ++ '/' :: m'.toList) ++ d :: s) :
    c = c' ∧ m = m' ∧ r = s := by
  have hPlain {c m : String} (hc : isClassName c = true) (hm : isSimpleName m = true) :
      ∀ e ∈ c.toList ++ '/' :: m.toList, e ≠ d := by
    rintro e he rfl
    exact member_plain hc hm hd hSlash he
  have hNoSlash {m : String} (hm : isSimpleName m = true) : ∀ e ∈ m.toList.reverse, e ≠ '/' := by
    rintro e he rfl
    exact not_mem_of_isSimpleName hm (by decide) (List.mem_reverse.mp he)
  obtain ⟨hSame, hRest⟩ := span_unique (p := (· ≠ d)) (hPlain hc hm) (hPlain hc' hm') (by simp)
    (by simp) h
  -- Read backwards, the name of the member ends at the first slash.
  have hBack : m.toList.reverse ++ '/' :: c.toList.reverse =
      m'.toList.reverse ++ '/' :: c'.toList.reverse := by
    simpa using congrArg List.reverse hSame
  obtain ⟨hName, hClass⟩ := span_unique (p := (· ≠ '/')) (hNoSlash hm) (hNoSlash hm') (by simp)
    (by simp) hBack
  exact ⟨String.toList_inj.mp (List.reverse_inj.mp (List.cons.inj hClass).2),
    String.toList_inj.mp (List.reverse_inj.mp hName), (List.cons.inj hRest).2⟩

namespace FieldRef

variable {field field' : FieldRef}

/-- The text of a field ends its name with a blank, and the last slash before it stands between the class
and the name. -/
theorem text_toList (field : FieldRef) : field.text.toList =
    (field.className.toList ++ '/' :: field.name.toList) ++ ' ' :: field.descriptor.toList := by
  simp [text]

/-- No part of a reference holds a colon, so that the text of an access to a field is not that of a
label. -/
theorem Formed.no_colon (h : field.Formed) : ':' ∉ field.text.toList := by
  rw [text_toList]
  intro hMem
  rcases List.mem_append.mp hMem with hMember | hDescriptor
  · exact member_plain h.className h.name (by decide) (by decide) hMember
  · exact h.descriptor.describes.no_colon ((List.mem_cons.mp hDescriptor).resolve_left (by decide))

/-- From the text of a reference the class, the name and the descriptor can be told, since a blank ends
the name and the last slash ends the class. -/
theorem Formed.text_injective (h : field.Formed) (h' : field'.Formed)
    (hText : field.text.toList = field'.text.toList) : field = field' := by
  rw [text_toList, text_toList] at hText
  obtain ⟨hClass, hName, hDescriptor⟩ := member_unambiguous (by decide) (by decide) h.className
    h'.className h.name h'.name hText
  exact FieldRef.ext hClass hName (String.toList_inj.mp hDescriptor)

end FieldRef

namespace MethodRef

variable {method method' : MethodRef}

/-- The descriptor of a method puts those of its parameters side by side, without signs between them, in
parentheses. -/
theorem descriptor_toList (method : MethodRef) : method.descriptor.toList =
    '(' :: (method.parameters.flatMap String.toList ++ ')' :: method.result.toList) := by
  simp [descriptor]

/-- The text of a method ends its name with the parenthesis that opens its descriptor, since no name
holds one. -/
theorem text_toList (method : MethodRef) : method.text.toList =
    (method.className.toList ++ '/' :: method.name.toList) ++ method.descriptor.toList := by
  simp [text]

/-- The descriptor of a method determines those of its parameters and of its result. No marks between
them are needed, because no descriptor begins another. -/
theorem descriptor_unambiguous (h : ∀ p ∈ method.parameters, IsDescriptor p)
    (h' : ∀ p ∈ method'.parameters, IsDescriptor p) (hSame : method.descriptor = method'.descriptor) :
    method.parameters = method'.parameters ∧ method.result = method'.result := by
  have hText := congrArg String.toList hSame
  rw [descriptor_toList, descriptor_toList] at hText
  obtain ⟨hParameters, hResult⟩ := parameters_unambiguous h h' (List.cons.inj hText).2
  exact ⟨hParameters, String.toList_inj.mp hResult⟩

theorem Formed.no_colon (h : method.Formed) : ':' ∉ method.text.toList := by
  rw [text_toList, descriptor_toList]
  intro hMem
  rcases List.mem_append.mp hMem with hMember | hDescriptor
  · exact member_plain h.className h.name (by decide) (by decide) hMember
  rcases List.mem_append.mp ((List.mem_cons.mp hDescriptor).resolve_left (by decide)) with
    hParameters | hResult
  · obtain ⟨p, hp, hMem⟩ := List.mem_flatMap.mp hParameters
    exact (h.parameters p hp).describes.no_colon hMem
  · exact h.result.describes.no_colon ((List.mem_cons.mp hResult).resolve_left (by decide))

/-- From the text of a reference all of its parts can be told, the list of its parameters among them,
since no descriptor goes on where another one ends. -/
theorem Formed.text_injective (h : method.Formed) (h' : method'.Formed)
    (hText : method.text.toList = method'.text.toList) : method = method' := by
  rw [text_toList, text_toList, descriptor_toList, descriptor_toList] at hText
  obtain ⟨hClass, hName, hDescriptor⟩ := member_unambiguous (by decide) (by decide) h.className
    h'.className h.name h'.name hText
  obtain ⟨hParameters, hResult⟩ := parameters_unambiguous h.parameters h'.parameters hDescriptor
  exact MethodRef.ext hClass hName hParameters (String.toList_inj.mp hResult)

end MethodRef

end MiniJava.Stack
