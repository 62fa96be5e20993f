import MiniJava.Proofs.Code.Typing
import MiniJava.Proofs.Lowering.Freshness

/-! Types of lowered code, and the contexts that it is typed in: the variables have their declared
types, and the temporaries those of the values that are assigned to them. -/

namespace MiniJava.Lowering

open Code (Context Instr)

variable {scope : Scope} {fresh fresh' : Fresh}

section Types

variable {t : Code.Ty} {ty expected : Source.Ty}

theorem ofName_of_isObject {name : String} (h : (Source.Ty.object name).isObject = true) :
    (Code.Ty.ofName name).isObject = true := by
  simp only [Source.Ty.isObject, Source.Ty.object, Bool.not_false, Bool.true_and,
    Bool.and_eq_true] at h
  obtain ⟨⟨hInt, hBoolean⟩, hVoid⟩ := h
  rw [Code.Ty.ofName, if_neg (of_decide_eq_true hInt), if_neg (of_decide_eq_true hBoolean)]
  split_ifs with hString hName
  · rfl
  · exact (of_decide_eq_true hVoid hName).elim
  · rfl

theorem ofSource_of_isObject (h : ty.isObject = true) : (Code.Ty.ofSource ty).isObject = true := by
  obtain ⟨name, isArray⟩ := ty
  cases isArray with
  | true => cases h
  | false => exact ofName_of_isObject h

theorem ofSource_of_isArray (h : ty.isArray = true) :
    Code.Ty.ofSource ty = .array (.ofSource ty.element) := by
  rw [Code.Ty.ofSource, if_pos h]
  rfl

theorem isElementary_element (h : ty.isVoid = false) :
    (Code.Ty.ofSource ty.element).isElementary = true := by
  have hVoid : ty.name ≠ "void" := by simpa [Source.Ty.isVoid] using h
  change (Code.Ty.ofName ty.name).isElementary = true
  rw [Code.Ty.ofName]
  split_ifs <;> rfl

theorem isVoid_ofSource_of (h : ty.isVoid = false) : (Code.Ty.ofSource ty).isVoid = false := by
  rw [← Bool.not_eq_true, isVoid_ofSource]
  rintro rfl
  cases h

/-- What fits in the program fits in code, where classes are not told apart. Two class types always fit,
as they do in the program. -/
theorem fits_ofSource (h : ty.fits expected = true) :
    (Code.Ty.ofSource ty).Fits (.ofSource expected) := by
  rcases Bool.or_eq_true_iff.mp h with hSame | hObjects
  · exact .inl (congrArg _ (of_decide_eq_true hSame))
  · obtain ⟨hTy, hExpected⟩ := Bool.and_eq_true_iff.mp hObjects
    exact .inr ⟨ofSource_of_isObject hTy, ofSource_of_isObject hExpected⟩

/-- The type of code that a declared type becomes. A new object and the receiver are of the class
that they are of, also where its name is that of strings. -/
def Exact (t : Code.Ty) (ty : Source.Ty) : Prop :=
  t = .ofSource ty ∨ ∃ className, t = .object className ∧ ty = .object className ∧ ty.isObject = true

theorem Exact.fits (h : Exact t ty) (hFits : ty.fits expected = true) :
    t.Fits (.ofSource expected) := by
  rcases h with rfl | ⟨className, rfl, rfl, hObject⟩
  · exact fits_ofSource hFits
  · refine .inr ⟨rfl, ?_⟩
    rcases Bool.or_eq_true_iff.mp hFits with hSame | hObjects
    · exact of_decide_eq_true hSame ▸ ofSource_of_isObject hObject
    · exact ofSource_of_isObject (Bool.and_eq_true_iff.mp hObjects).2

theorem Exact.eq_of_not_object (h : Exact t ty) (hObject : ty.isObject = false) :
    t = .ofSource ty := by
  rcases h with hSame | ⟨_, _, _, hIs⟩
  · exact hSame
  · rw [hObject] at hIs
    cases hIs

theorem Exact.int (h : Exact t ty) (hInt : ty = .int) : t = .int32 := by
  subst hInt
  exact h.eq_of_not_object rfl

theorem Exact.boolean (h : Exact t ty) (hBoolean : ty = .boolean) : t = .boolean := by
  subst hBoolean
  exact h.eq_of_not_object rfl

theorem Exact.array (h : Exact t ty) (hArray : ty.isArray = true) :
    t = .array (.ofSource ty.element) := by
  rw [h.eq_of_not_object (by rw [Source.Ty.isObject, hArray]; rfl), ofSource_of_isArray hArray]

theorem Exact.isObject (h : Exact t ty) (hObject : ty.isObject = true) : t.isObject = true := by
  rcases h with rfl | ⟨_, rfl, _, _⟩
  · exact ofSource_of_isObject hObject
  · rfl

/-- A value that the code knows to be of a class is of that class in the program. Only strings have a
type of their own in code. -/
theorem Exact.object {className : String} (h : Exact (.object className) ty) :
    ty = .object className := by
  rcases h with hSame | ⟨_, ⟨⟩, rfl, _⟩
  · obtain ⟨name, isArray⟩ := ty
    cases isArray with
    | true => cases hSame
    | false =>
        change Code.Ty.object className = .ofName name at hSame
        rw [Code.Ty.ofName] at hSame
        split_ifs at hSame
        cases hSame
        rfl
  · rfl

end Types

/-- What code is typed against, given the types of its variables. Everything else in the context is read
off the scope. -/
def Scope.context (scope : Scope) (typeOf : String → Option Code.Ty) : Context where
  typeOf := typeOf
  isStatic := scope.method.isStatic
  className := scope.symbols.className
  returnType := .ofSource scope.method.returnType
  parameters? method :=
    (scope.symbols.method? method).map (·.parameters.map fun d => .ofSource d.ty)

/-- The declarations of a well-typed program, as far as one method sees them. Lowering relies on these
facts and on no others. -/
structure Scope.Sound (scope : Scope) : Prop where
  known : scope.Known
  locals : ∀ name d, scope.method.lookup? name = some d → d.ty.isVoid = false
  fields : ∀ name d, scope.symbols.field? name = some d → d.ty.isVoid = false
  className : (Source.Ty.object scope.symbols.className).isObject = true
  varargs : ∀ method signature, scope.symbols.method? method = some signature →
    signature.isVarargs = true → ∃ first, signature.parameters.map (·.ty) = first ++ [.intArray]

/-- The types of declared variables are those declared. Temporaries are not spoken of, since their types
come with the code. -/
def Declares (scope : Scope) (typeOf : String → Option Code.Ty) : Prop :=
  ∀ name d, scope.method.lookup? name = some d → typeOf name = some (.ofSource d.ty)

/-- Between two states of the numbers, types can be given to the temporaries taken so that `Q` holds
of every context in which these and the declared variables have their types. -/
def Typeable (scope : Scope) (fresh fresh' : Fresh) (Q : Context → Prop) : Prop :=
  ∃ typings : List (String × Code.Ty), Takes scope fresh (typings.map (·.1)) fresh' ∧
    ∀ typeOf, Declares scope typeOf → (∀ p ∈ typings, typeOf p.1 = some p.2) →
      Q (scope.context typeOf)

namespace Typeable

variable {middle : Fresh} {Q Q' : Context → Prop}

theorem pure (h : ∀ typeOf, Declares scope typeOf → Q (scope.context typeOf)) :
    Typeable scope fresh fresh Q :=
  ⟨[], .nil fresh, fun typeOf hDeclares _ => h typeOf hDeclares⟩

theorem temp {name : String} (h : scope.newTemp.run fresh = .ok name fresh') (ty : Code.Ty) :
    Typeable scope fresh fresh' fun c => c.typeOf name = some ty :=
  ⟨[(name, ty)], .newTemp h, fun _ _ hGives => hGives _ (List.mem_singleton_self _)⟩

theorem imp (h : Typeable scope fresh fresh' Q)
    (hImp : ∀ typeOf, Declares scope typeOf → Q (scope.context typeOf) → Q' (scope.context typeOf)) :
    Typeable scope fresh fresh' Q' := by
  obtain ⟨typings, hTakes, hQ⟩ := h
  exact ⟨typings, hTakes, fun typeOf hDeclares hGives =>
    hImp typeOf hDeclares (hQ typeOf hDeclares hGives)⟩

/-- Types for what is taken first and for what is taken then, no temporary being taken twice. -/
theorem and (h : Typeable scope fresh middle Q) (h' : Typeable scope middle fresh' Q') :
    Typeable scope fresh fresh' fun c => Q c ∧ Q' c := by
  obtain ⟨typings, hTakes, hQ⟩ := h
  obtain ⟨typings', hTakes', hQ'⟩ := h'
  refine ⟨typings ++ typings', by rw [List.map_append]; exact hTakes.append hTakes', ?_⟩
  intro typeOf hDeclares hGives
  obtain ⟨hFirst, hRest⟩ := List.forall_mem_append.mp hGives
  exact ⟨hQ typeOf hDeclares hFirst, hQ' typeOf hDeclares hRest⟩

/-- Taking a label takes no temporary. -/
theorem label (h : Typeable scope { fresh with nextLabel := fresh.nextLabel + 1 } fresh' Q) :
    Typeable scope fresh fresh' Q := by
  obtain ⟨typings, hTakes, hQ⟩ := h
  exact ⟨typings, .label rfl hTakes, hQ⟩

end Typeable

/-- All instructions of the code are well-typed. Each is by itself, because operands carry their
types. -/
def CodeTyped (code : List Instr) (c : Context) : Prop := ∀ i ∈ code, i.Typed c

section Code

variable {c : Context} {code rest : List Instr}

theorem CodeTyped.nil : CodeTyped [] c := List.forall_mem_nil _

theorem CodeTyped.append (hCode : CodeTyped code c) (hRest : CodeTyped rest c) :
    CodeTyped (code ++ rest) c := List.forall_mem_append.mpr ⟨hCode, hRest⟩

theorem CodeTyped.snoc {i : Instr} (hCode : CodeTyped code c) (hi : i.Typed c) :
    CodeTyped (code ++ [i]) c := hCode.append (List.forall_mem_singleton.mpr hi)

end Code

end MiniJava.Lowering
