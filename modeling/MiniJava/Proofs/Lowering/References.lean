import MiniJava.Proofs.Lowering.MethodMeaning
import MiniJava.Proofs.Source.References
import Mathlib.Data.List.Forall2

/-! Which members the three-address code of a phrase refers to. Code refers to the members that its
phrase refers to and to no others, in the same order. -/

namespace MiniJava.Code

/-- The part of an instruction that refers to a class: an access to a field, an allocation or a call. An
assignment refers to what its right-hand side refers to. -/
def Instr.member? : Instr → Option Instr
  | .assign _ _ rhs => rhs.member?
  | .getField object field ty => some (.getField object field ty)
  | .putField object field ty value => some (.putField object field ty value)
  | .call .new receiver method arguments ty =>
      if ty.isArray then none else some (.call .new receiver method arguments ty)
  | .call .arrayLength _ _ _ _ => none
  | .call kind receiver method arguments ty => some (.call kind receiver method arguments ty)
  | _ => none

/-- The parts of some code that refer to classes, in the order of the code. Each of them becomes one
reference of the stack code. -/
def members (code : List Instr) : List Instr := code.filterMap Instr.member?

@[simp] theorem members_nil : members [] = [] := rfl

@[simp] theorem members_append (code rest : List Instr) :
    members (code ++ rest) = members code ++ members rest := List.filterMap_append

@[simp] theorem members_cons (i : Instr) (code : List Instr) :
    members (i :: code) = i.member?.toList ++ members code := by
  rw [members, List.filterMap_cons]
  cases i.member? <;> rfl

end MiniJava.Code

namespace MiniJava.Lowering

open Code (CallKind Condition Instr Label Operand members)
open Source (Expr MethodDecl Program Reference Stmt SymbolTable meaning receiverClass?)

variable {scope : Scope} {fresh fresh' : Fresh}

theorem meaning_variable {name : String} {d : Source.Declaration}
    (h : scope.method.lookup? name = some d) : meaning scope name = .variable d.ty := by
  rw [meaning, h]

/-- A name that the method does not declare, but the class does, means a field. Lowering looks it up in
the same two steps. -/
theorem meaning_field (hKnown : scope.Known) {name : String} {d : Source.Declaration}
    (hLookup : scope.method.lookup? name = none)
    (hField : scope.symbols.visibleField? scope.method.name name = some d) :
    meaning scope name = .field d.ty := by
  rw [visibleField?_eq hKnown hLookup] at hField
  rw [meaning, hLookup, hField]

/-- A name that neither declares means a class if it is one that the class knows. -/
theorem meaning_class (hKnown : scope.Known) {name : String}
    (hLookup : scope.method.lookup? name = none)
    (hField : scope.symbols.visibleField? scope.method.name name = none)
    (hClass : scope.symbols.isClassReference name = true) : meaning scope name = .className := by
  rw [visibleField?_eq hKnown hLookup] at hField
  exact Source.meaning_className_iff.mpr ⟨hLookup, hField, hClass⟩

/-- Whether the operand is known by its type: it is neither the receiver of the method nor a class. The
class of such an operand is that of its type. -/
def isDatum : Operand → Bool
  | .self _ | .classRef _ => false
  | _ => true

/-- The operand that holds the value of an expression: the receiver of the method, an object just
made, or an operand of the declared type, unless that is a number or a truth value. -/
inductive Carries (scope : Scope) (e : Expr) : Operand → Prop where
  | self {ty : Source.Ty} (h : e.bare = .self ty) : Carries scope e scope.self
  | object {className : String} (h : e.bare = .newObject className) (object : String) :
      Carries scope e (.variable object (.object className))
  | declared {o : Operand} (hDatum : isDatum o = true)
      (hTy : o.ty = .ofSource (e.declaredTy scope)) : Carries scope e o
  | number {o : Operand} (hDatum : isDatum o = true) (hTy : o.ty = .int32 ∨ o.ty = .boolean) :
      Carries scope e o

/-- An operand that is left was one already or is the temporary to which the value was moved. -/
theorem finish_operand {mayStay : Bool} {value : Instr} {code : List Instr} {l : Lowered}
    {o : Operand} (h : (finish scope mayStay value code).run fresh = .ok l fresh')
    (hOperand : l.value = .operand o) :
    value = .operand o ∨ ∃ name, o = .variable name value.valueType := by
  rcases finish_run.mp h with ⟨_, rfl, _⟩ | ⟨_, name, _, rfl⟩
  · exact .inl hOperand
  · exact .inr ⟨name, (Instr.operand.inj hOperand).symm⟩

/-- A value of the declared type that is no operand is left in a temporary of that type, whichever use it
was lowered for. -/
theorem Carries.of_finish {e : Expr} {mayStay : Bool} {value : Instr} {code : List Instr}
    {l : Lowered} {o : Operand} (h : (finish scope mayStay value code).run fresh = .ok l fresh')
    (hOperand : l.value = .operand o) (hValue : ∀ o, value ≠ .operand o)
    (hTy : value.valueType = .ofSource (e.declaredTy scope)) : Carries scope e o := by
  rcases finish_operand h hOperand with hSame | ⟨name, rfl⟩
  · exact (hValue o hSame).elim
  · exact .declared rfl hTy

/-- A value of integer or boolean type that is no operand is left in a temporary of that type, whatever
the program says of it. -/
theorem Carries.of_finish_number {e : Expr} {mayStay : Bool} {value : Instr} {code : List Instr}
    {l : Lowered} {o : Operand} (h : (finish scope mayStay value code).run fresh = .ok l fresh')
    (hOperand : l.value = .operand o) (hValue : ∀ o, value ≠ .operand o)
    (hTy : value.valueType = .int32 ∨ value.valueType = .boolean) : Carries scope e o := by
  rcases finish_operand h hOperand with hSame | ⟨name, rfl⟩
  · exact (hValue o hSame).elim
  · exact .number rfl hTy

/-- The operand of an expression is that of the same expression in parentheses. -/
theorem Carries.paren {inner : Expr} {o : Operand} (h : Carries scope inner o) :
    Carries scope (.paren inner) o := by
  cases h with
  | self hBare => exact .self hBare
  | object hBare name => exact .object (e := .paren inner) hBare name
  | declared hDatum hTy => exact .declared hDatum hTy
  | number hDatum hTy => exact .number hDatum hTy

theorem Carries.ne_classRef {e : Expr} {o : Operand} (h : Carries scope e o) (className : String) :
    o ≠ .classRef className := by
  rintro rfl
  cases h with
  | declared hDatum _ | number hDatum _ => cases hDatum

/-- The operand of an expression that is no class is the receiver, or of the type that the expression
declares. From this the class of a call is told. -/
theorem carries (hKnown : scope.Known) {e : Expr} {use : Use} {l : Lowered}
    (hObject : receiverClass? scope e = none) (h : (expr scope e use).run fresh = .ok l fresh')
    {o : Operand} (hOperand : l.value = .operand o) : Carries scope e o := by
  induction e generalizing fresh with
  | intLiteral value =>
      obtain ⟨rfl, rfl⟩ := run_pure_ok.mp h
      obtain rfl := Instr.operand.inj hOperand
      exact .number rfl (.inl rfl)
  | boolLiteral value =>
      obtain ⟨rfl, rfl⟩ := run_pure_ok.mp h
      obtain rfl := Instr.operand.inj hOperand
      exact .number rfl (.inr rfl)
  | self ty =>
      obtain ⟨rfl, rfl⟩ := run_pure_ok.mp h
      obtain rfl := Instr.operand.inj hOperand
      exact .self rfl
  | ident name ty =>
      rcases identifier_run.mp h with ⟨d, hLookup, rfl, rfl⟩ | ⟨d, hLookup, hField, hFinish⟩ |
        ⟨hLookup, hField, hClass, rfl, rfl⟩
      · obtain rfl := Instr.operand.inj hOperand
        refine .declared rfl ?_
        simp [Expr.declaredTy, Expr.bare, meaning_variable hLookup, Operand.ty]
      · refine .of_finish hFinish hOperand nofun ?_
        simp [Expr.declaredTy, Expr.bare, meaning_field hKnown hLookup hField, Instr.valueType]
      · simp [receiverClass?, Expr.bare, meaning_class hKnown hLookup hField hClass] at hObject
  | paren inner ih => exact (ih hObject h).paren
  | index base place ty =>
      obtain ⟨_, _, _, _, _, _, _, _, _, _, hFinish⟩ := expr_index_run.mp h
      rcases finish_operand hFinish hOperand with hSame | ⟨name, rfl⟩
      · obtain rfl := Instr.operand.inj hSame
        exact .declared rfl rfl
      · exact .declared rfl rfl
  | not operand =>
      obtain ⟨_, _, _, _, hFinish⟩ := expr_not_run.mp h
      exact .of_finish_number hFinish hOperand nofun (.inr rfl)
  | newArray size =>
      obtain ⟨_, _, _, _, hFinish⟩ := expr_newArray_run.mp h
      exact .of_finish hFinish hOperand nofun rfl
  | newObject className =>
      obtain ⟨object, _, rfl⟩ := expr_newObject_run.mp h
      obtain rfl := Instr.operand.inj hOperand
      exact .object rfl object
  | arrayLiteral elements =>
      obtain ⟨_, _, _, _, _, _, _, _, rfl⟩ := expr_arrayLiteral_run.mp h
      obtain rfl := Instr.operand.inj hOperand
      exact .declared rfl rfl
  | binary op left right ty =>
      by_cases hOp : op = .and
      · subst hOp
        obtain ⟨_, _, _, _, _, _, _, _, _, _, _, _, _, rfl⟩ := expr_and_run.mp h
        obtain rfl := Instr.operand.inj hOperand
        exact .number rfl (.inr rfl)
      · obtain ⟨_, _, _, _, _, _, _, _, hFinish⟩ := (expr_binary_run hOp).mp h
        exact .of_finish hFinish hOperand nofun rfl
  | call receiver method arguments ty =>
      cases hLength : asksLength receiver method arguments with
      | true =>
          obtain ⟨_, _, _, _, hFinish⟩ := (expr_length_run hLength).mp h
          exact .of_finish_number hFinish hOperand nofun (.inl rfl)
      | false =>
          obtain ⟨_, _, _, _, _, _, _, _, _, _, _, _, _, hFinish⟩ := (expr_call_run hLength).mp h
          exact .of_finish ((finishCall_run rfl).mp hFinish).2 hOperand nofun rfl

/-- The instruction that makes a reference. For each kind of reference there is one form of instruction,
so that counting the one counts the other. -/
inductive Refers (scope : Scope) : Reference → Instr → Prop where
  | new (className : String) : Refers scope (.new className)
      (.call .new (.classRef className) none [] (.object className))
  | construct (className object : String) : Refers scope (.construct className)
      (.call .invokeSpecial (.variable object (.object className)) (some "<init>") [] .void)
  | callStatic {receiver : Expr} {className : String} (method : String) {arguments : List Expr}
      {values : List Operand} (returnType : Code.Ty)
      (hClass : receiverClass? scope receiver = some className)
      (hValues : values.length = Source.passedArguments scope receiver method arguments) :
      Refers scope (.call receiver method arguments)
        (.call .invokeStatic (.classRef className) (some method) values returnType)
  | callVirtual {receiver : Expr} {target : Operand} (method : String) {arguments : List Expr}
      {values : List Operand} (returnType : Code.Ty)
      (hObject : receiverClass? scope receiver = none) (hTarget : Carries scope receiver target)
      (hValues : values.length = Source.passedArguments scope receiver method arguments) :
      Refers scope (.call receiver method arguments)
        (.call .invokeVirtual target (some method) values returnType)
  | read {name : String} {ty : Source.Ty} (h : meaning scope name = .field ty) :
      Refers scope (.read name) (.getField scope.self name (.ofSource ty))
  | write {name : String} {ty : Source.Ty} (value : Operand) (h : meaning scope name = .field ty) :
      Refers scope (.write name) (.putField scope.self name (.ofSource ty) value)

/-- Code makes the references of a phrase, one for one and in their order. Nothing is referred to twice,
and nothing that the phrase does not mention. -/
abbrev CodeRefers (scope : Scope) (references : List Reference) (code : List Instr) : Prop :=
  List.Forall₂ (Refers scope) references (members code)

/-- What the code of an expression refers to, and what is left for the instruction that yields its
value: where that instruction may be a call, it makes the reference of the call, and else none. -/
def Lowered.Refers (scope : Scope) (use : Use) (e : Expr) (l : Lowered) : Prop :=
  match use with
  | .assignRhs | .discard => CodeRefers scope (e.earlier scope) l.code ∧
      CodeRefers scope e.lastCall [l.value]
  | .value | .condition => CodeRefers scope (e.references scope) l.code ∧ members [l.value] = []

namespace Lowered.Refers

variable {use : Use} {e : Expr} {l : Lowered}

/-- An expression that is no call makes all references in its code. Nothing is left over to whoever uses
its value. -/
theorem of_code (hLast : e.lastCall = []) (hCode : CodeRefers scope (e.earlier scope) l.code)
    (hValue : members [l.value] = []) : l.Refers scope use e := by
  have hNone : CodeRefers scope e.lastCall [l.value] := by
    rw [CodeRefers, hLast, hValue]
    exact .nil
  cases use with
  | assignRhs | discard => exact ⟨hCode, hNone⟩
  | value | condition => exact ⟨by rwa [Expr.references, hLast, List.append_nil], hValue⟩

/-- Whatever is left to the value, all references are made by the code and the value together. -/
theorem all (h : l.Refers scope use e) :
    CodeRefers scope (e.references scope) (l.code ++ [l.value]) := by
  rw [CodeRefers, Code.members_append]
  cases use with
  | assignRhs | discard => exact List.rel_append h.1 h.2
  | value | condition =>
      rw [h.2, List.append_nil]
      exact h.1

end Lowered.Refers

/-- Code that is left to a value that refers to nothing. Moving the value to a temporary refers to
nothing either. -/
theorem members_finish {mayStay : Bool} {value : Instr} {code : List Instr} {l : Lowered}
    (hValue : value.member? = none)
    (h : (finish scope mayStay value code).run fresh = .ok l fresh') :
    members l.code = members code ∧ members [l.value] = [] := by
  rcases finish_run.mp h with ⟨_, rfl, _⟩ | ⟨_, name, _, rfl⟩
  · exact ⟨rfl, by simp [hValue]⟩
  · exact ⟨by simp [Instr.member?, hValue], rfl⟩

theorem Lowered.Refers.of_finish {use : Use} {e : Expr} {mayStay : Bool} {value : Instr}
    {code : List Instr} {l : Lowered} (hLast : e.lastCall = []) (hValue : value.member? = none)
    (hCode : CodeRefers scope (e.earlier scope) code)
    (h : (finish scope mayStay value code).run fresh = .ok l fresh') : l.Refers scope use e := by
  obtain ⟨hMembers, hNone⟩ := members_finish hValue h
  exact .of_code hLast (by rwa [CodeRefers, hMembers]) hNone

theorem eq_assign_of_mem_storeItems {array : String} {first : Nat} {values : List Operand} {i : Instr}
    (h : i ∈ storeItems array first values) :
    ∃ place value, i = .assign place .int32 (.operand value) := by
  simp only [storeItems, List.mem_mapIdx] at h
  obtain ⟨_, _, rfl⟩ := h
  exact ⟨_, _, rfl⟩

@[simp] theorem members_storeItems (array : String) (first : Nat) (values : List Operand) :
    members (storeItems array first values) = [] := by
  rw [members, List.filterMap_eq_nil_iff]
  intro i hi
  obtain ⟨_, _, rfl⟩ := eq_assign_of_mem_storeItems hi
  rfl

theorem members_fillArray {array : String} {values : List Operand} {code : List Instr}
    (h : (fillArray array values).run fresh = .ok code fresh') : members code = [] := by
  obtain ⟨_, rfl, _⟩ := fillArray_run.mp h
  simp [Instr.member?, newIntArray, Code.Ty.intArray, Code.Ty.isArray]

theorem refers_newObjectCode (className object : String) :
    CodeRefers scope [.new className, .construct className] (newObjectCode object className) :=
  .cons (.new className) (.cons (.construct className object) .nil)

/-- The code of an expression refers to what the expression refers to. The use decides whether the last
reference is in the code or in the value that is left. -/
def Refer (scope : Scope) (e : Expr) : Prop :=
  ∀ ⦃use fresh l fresh'⦄, (expr scope e use).run fresh = .ok l fresh' → l.Refers scope use e

namespace Refer

variable {e : Expr} {code : List Instr}

/-- Asked for as an operand, an expression makes all its references in its code. -/
theorem operand {o : Operand} (he : Refer scope e)
    (h : (operand scope e).run fresh = .ok (o, code) fresh') :
    CodeRefers scope (e.references scope) code := (he (operand_run.mp h)).1

/-- Asked for as a condition, it does so too, for a comparison refers to nothing. -/
theorem condition {c : Condition} (he : Refer scope e)
    (h : (condition scope e).run fresh = .ok (c, code) fresh') :
    CodeRefers scope (e.references scope) code := by
  obtain ⟨_, hLower, -⟩ := condition_run.mp h
  exact (he hLower).1

/-- Expressions make their references one after another, and each gives one operand. The operands refer
to nothing by themselves. -/
theorem operands {es : List Expr} (hes : ∀ e ∈ es, Refer scope e) {os : List Operand}
    (h : (operands scope es).run fresh = .ok (os, code) fresh') :
    CodeRefers scope (Source.referencesAll scope es) code ∧ os.length = es.length := by
  induction es generalizing fresh os code with
  | nil =>
      obtain ⟨rfl, rfl, -⟩ := operands_nil_run.mp h
      exact ⟨.nil, rfl⟩
  | cons e rest ih =>
      obtain ⟨hHead, hRest⟩ := List.forall_mem_cons.mp hes
      obtain ⟨_, _, _, _, _, hFirst, hOthers, rfl, rfl⟩ := operands_cons_run.mp h
      obtain ⟨hCode, hLength⟩ := ih hRest hOthers
      rw [CodeRefers, Code.members_append]
      exact ⟨List.rel_append (hHead.operand hFirst) hCode, congrArg (· + 1) hLength⟩

end Refer

/-- As many operands are passed on as the call of the program passes on. Collecting refers to no class,
since arrays have none. -/
theorem collect_length {receiver : Expr} {target : Operand} {method : String}
    {arguments : List Expr} {os values : List Operand} {code : List Instr}
    (hArity : scope.fixedArity? target receiver.ty method =
      Source.leadingArguments? scope receiver method) (hLength : os.length = arguments.length)
    (h : (collect scope (scope.fixedArity? target receiver.ty method) arguments os).run fresh =
      .ok (values, code) fresh') :
    values.length = Source.passedArguments scope receiver method arguments ∧ members code = [] := by
  rw [hArity] at h
  unfold Source.passedArguments
  rcases collect_run.mp h with ⟨hAll, rfl, rfl, _⟩ | ⟨n, array, hSome, hOne, _, hFill, rfl⟩
  · refine ⟨?_, rfl⟩
    split
    · rename_i n hSome
      rw [hSome, Option.all_some] at hAll
      rw [if_pos hAll, hLength]
    · exact hLength
  · refine ⟨?_, members_fillArray hFill⟩
    rw [hSome]
    simp [hOne, hLength]

/-- A receiver that names a class refers to nothing by itself; the call does. -/
theorem references_of_class {receiver : Expr} {className : String}
    (h : receiverClass? scope receiver = some className) :
    receiver.earlier scope = [] ∧ receiver.lastCall = [] := by
  induction receiver with
  | ident name ty =>
      by_cases hClass : meaning scope name = .className
      · simp [Expr.earlier, Expr.lastCall, Expr.bare, hClass]
      · simp [receiverClass?, Expr.bare, hClass] at h
  | paren inner ih => exact ih h
  | _ => cases h

/-- The target of a call, for any arguments that are passed on. It is the class that the receiver names,
or an object of the receiver's type. -/
theorem refers_callTarget (hKnown : scope.Known) {receiver : Expr} (hReceiver : Refer scope receiver)
    {kind : CallKind} {target : Operand} {code : List Instr}
    (h : (callTarget scope receiver (operand scope receiver)).run fresh =
      .ok (kind, target, code) fresh') :
    CodeRefers scope (receiver.references scope) code ∧
      (∀ className, target = .classRef className ↔
        scope.staticTarget? receiver = some className) ∧
      (kind = .invokeStatic ∨ kind = .invokeVirtual) ∧
      ∀ (method : String) (arguments : List Expr) (values : List Operand) (ty : Code.Ty),
        values.length = Source.passedArguments scope receiver method arguments →
          Refers scope (.call receiver method arguments)
            (.call kind target (some method) values ty) := by
  have hStatic := staticTarget?_eq scope receiver
  rcases callTarget_run.mp h with ⟨className, hClass, rfl, rfl, rfl, _⟩ | ⟨hNone, rfl, hObject⟩
  · have hFound := hStatic.symm.trans hClass
    obtain ⟨hEarlier, hLast⟩ := references_of_class hFound
    refine ⟨?_, fun other => ?_, .inl rfl, fun method _ _ ty => .callStatic method ty hFound⟩
    · rw [Expr.references, hEarlier, hLast]
      exact .nil
    · rw [hClass, Operand.classRef.injEq, Option.some.injEq]
  · have hFound := hStatic.symm.trans hNone
    have hCarries := carries hKnown hFound (operand_run.mp hObject) rfl
    refine ⟨hReceiver.operand hObject, fun other => ?_, .inr rfl,
      fun method _ _ ty => .callVirtual method ty hFound hCarries⟩
    simp [hCarries.ne_classRef other, hNone]

/-- A call refers to its method after its receiver and its arguments. It is the one reference that may be
left over to an assignment. -/
theorem refer_call (hKnown : scope.Known) {receiver : Expr} {method : String}
    {arguments : List Expr} {ty : Source.Ty} (hReceiver : Refer scope receiver)
    (hArguments : ∀ e ∈ arguments, Refer scope e)
    (hLength : asksLength receiver method arguments = false) :
    Refer scope (.call receiver method arguments ty) := by
  intro use fresh l fresh' h
  obtain ⟨kind, target, code, _, _, argumentCode, _, values, collectCode, _, hTarget, hLower, hCollect,
    hFinish⟩ := (expr_call_run hLength).mp h
  obtain ⟨hCode, hClass, hKind, hCall⟩ := refers_callTarget hKnown hReceiver hTarget
  obtain ⟨hArgumentCode, hCount⟩ := Refer.operands hArguments hLower
  obtain ⟨hValues, hNone⟩ := collect_length (fixedArity?_eq method hClass) hCount hCollect
  have hLast : (Expr.call receiver method arguments ty).lastCall =
      [.call receiver method arguments] := by
    simp [Expr.lastCall, Expr.bare, hLength]
  have hEarlier : CodeRefers scope ((Expr.call receiver method arguments ty).earlier scope)
      (code ++ argumentCode ++ collectCode) := by
    rw [CodeRefers, Code.members_append, Code.members_append, hNone, List.append_nil, Expr.earlier,
      hLength, if_neg Bool.false_ne_true]
    exact List.rel_append hCode hArgumentCode
  have hMember : members [.call kind target (some method) values (.ofSource ty)] =
      [.call kind target (some method) values (.ofSource ty)] := by
    rcases hKind with rfl | rfl <;> rfl
  have hThis : CodeRefers scope [.call receiver method arguments]
      [.call kind target (some method) values (.ofSource ty)] := by
    rw [CodeRefers, hMember]
    exact .cons (hCall _ _ _ _ hValues) .nil
  rcases finish_run.mp ((finishCall_run rfl).mp hFinish).2 with ⟨hStay, rfl, _⟩ |
    ⟨hLeave, name, _, rfl⟩
  · cases use with
    | assignRhs | discard => exact ⟨hEarlier, hLast ▸ hThis⟩
    | value | condition => cases hStay
  · cases use with
    | assignRhs | discard => cases hLeave
    | value | condition =>
        refine ⟨?_, rfl⟩
        rw [Expr.references, hLast, CodeRefers, Code.members_append]
        exact List.rel_append hEarlier hThis

/-- The code of every expression refers to what the expression refers to, by induction on the
expression. -/
theorem refer (hKnown : scope.Known) (e : Expr) : Refer scope e := by
  induction e with
  | intLiteral value | boolLiteral value | self ty =>
      intro use fresh l fresh' h
      obtain ⟨rfl, rfl⟩ := run_pure_ok.mp h
      exact .of_code rfl .nil rfl
  | ident name ty =>
      intro use fresh l fresh' h
      rcases identifier_run.mp h with ⟨d, hLookup, rfl, _⟩ | ⟨d, hLookup, hField, hFinish⟩ |
        ⟨hLookup, hField, hClass, rfl, _⟩
      · refine .of_code rfl ?_ rfl
        rw [Expr.earlier, meaning_variable hLookup]
        exact .nil
      · rcases finish_run.mp hFinish with ⟨hStay, _⟩ | ⟨_, _, _, rfl⟩
        · cases hStay
        · have hMeaning := meaning_field hKnown hLookup hField
          refine .of_code rfl ?_ rfl
          rw [Expr.earlier, hMeaning]
          exact .cons (.read hMeaning) .nil
      · refine .of_code rfl ?_ rfl
        rw [Expr.earlier, meaning_class hKnown hLookup hField hClass]
        exact .nil
  | paren inner hInner =>
      intro use fresh l fresh' h
      have hRefers : l.Refers scope use inner := hInner h
      cases use <;> exact hRefers
  | index base place ty hBase hPlace =>
      intro use fresh l fresh' h
      obtain ⟨_, _, _, _, _, _, _, hLower, hLowerPlace, _, hFinish⟩ := expr_index_run.mp h
      refine .of_finish rfl rfl ?_ hFinish
      rw [CodeRefers, Code.members_append]
      exact List.rel_append (hBase.operand hLower) (hPlace.operand hLowerPlace)
  | not operand hOperand =>
      intro use fresh l fresh' h
      obtain ⟨_, _, _, hLower, hFinish⟩ := expr_not_run.mp h
      exact .of_finish rfl rfl (hOperand.operand hLower) hFinish
  | newArray size hSize =>
      intro use fresh l fresh' h
      obtain ⟨_, _, _, hLower, hFinish⟩ := expr_newArray_run.mp h
      exact .of_finish rfl rfl (hSize.operand hLower) hFinish
  | newObject className =>
      intro use fresh l fresh' h
      obtain ⟨object, _, rfl⟩ := expr_newObject_run.mp h
      exact .of_code rfl (refers_newObjectCode className object) rfl
  | arrayLiteral elements hElements =>
      intro use fresh l fresh' h
      obtain ⟨_, _, _, _, _, hLower, _, hFill, rfl⟩ := expr_arrayLiteral_run.mp h
      refine .of_code rfl ?_ rfl
      rw [CodeRefers, Code.members_append, members_fillArray hFill, List.append_nil]
      exact (Refer.operands hElements hLower).1
  | binary op left right ty hLeft hRight =>
      intro use fresh l fresh' h
      by_cases hOp : op = .and
      · subst hOp
        obtain ⟨_, _, _, _, _, _, _, _, _, hLower, _, _, hLowerRight, rfl⟩ := expr_and_run.mp h
        refine .of_code rfl ?_ rfl
        simp only [CodeRefers, shortCircuit, Code.members_append, Code.members_cons,
          Code.members_nil, Instr.member?, Option.toList_none, List.nil_append, List.append_nil]
        exact List.rel_append (hLeft.condition hLower) (hRight.operand hLowerRight)
      · obtain ⟨_, _, _, _, _, _, hLower, hLowerRight, hFinish⟩ := (expr_binary_run hOp).mp h
        refine .of_finish rfl rfl ?_ hFinish
        rw [CodeRefers, Code.members_append]
        exact List.rel_append (hLeft.operand hLower) (hRight.operand hLowerRight)
  | call receiver method arguments ty hReceiver hArguments =>
      cases hLength : asksLength receiver method arguments with
      | false => exact refer_call hKnown hReceiver hArguments hLength
      | true =>
          intro use fresh l fresh' h
          obtain ⟨_, _, _, hLower, hFinish⟩ := (expr_length_run hLength).mp h
          refine .of_finish (by simp [Expr.lastCall, Expr.bare, hLength]) rfl ?_ hFinish
          rw [Expr.earlier, hLength, if_pos rfl, List.append_nil]
          exact hReceiver.operand hLower

section Statements

variable {code : List Instr}

theorem refers_assignName (hKnown : scope.Known) {name : String} {ty : Source.Ty} {target value : Expr}
    (hTarget : target.bare = .ident name ty)
    (h : (assignName scope name value).run fresh = .ok code fresh') :
    CodeRefers scope (Source.assignReferences scope target value) code := by
  rcases assignName_run.mp h with ⟨d, l, hLookup, hLower, rfl⟩ |
    ⟨d, o, valueCode, hLookup, hField, hLower, rfl⟩
  · simp only [Source.assignReferences, hTarget, meaning_variable hLookup]
    have hAll := (refer hKnown value hLower).all
    rw [CodeRefers, Code.members_append] at hAll ⊢
    exact hAll
  · have hMeaning := meaning_field hKnown hLookup hField
    simp only [Source.assignReferences, hTarget, hMeaning]
    rw [CodeRefers, Code.members_append]
    exact List.rel_append ((refer hKnown value).operand hLower) (.cons (.write o hMeaning) .nil)

/-- An assignment to an item evaluates the value first. A call that is the value itself comes last, with
the store. -/
theorem refers_assignElement (hKnown : scope.Known) {target base place value : Expr} {ty : Source.Ty}
    (hTarget : target.bare = .index base place ty)
    (h : (assignElement scope base place ty value).run fresh = .ok code fresh') :
    CodeRefers scope (Source.assignReferences scope target value) code := by
  obtain ⟨l, _, _, _, _, _, _, _, hLower, hBase, hPlace, _, rfl⟩ := assignElement_run.mp h
  obtain ⟨hEarlier, hLast⟩ := refer hKnown value hLower
  simp only [Source.assignReferences, hTarget]
  rw [CodeRefers, Code.members_append, Code.members_append, Code.members_append]
  exact List.rel_append (List.rel_append (List.rel_append hEarlier
    ((refer hKnown base).operand hBase)) ((refer hKnown place).operand hPlace)) hLast

theorem members_discarded (l : Lowered) :
    members (discarded l) = members (l.code ++ [l.value]) := by
  obtain ⟨value, code⟩ := l
  cases value with
  | operand o => simp [discarded, Instr.member?]
  | _ => rfl

/-- The code of a statement refers to what the statement refers to. The test of a loop counts twice,
since its code stands twice. -/
def ReferStmt (scope : Scope) (s : Stmt) : Prop :=
  ∀ ⦃fresh code fresh'⦄, (stmt scope s).run fresh = .ok code fresh' →
    CodeRefers scope (s.references scope) code

theorem ReferStmt.stmts {ss : List Stmt} (hss : ∀ s ∈ ss, ReferStmt scope s)
    (h : (stmts scope ss).run fresh = .ok code fresh') :
    CodeRefers scope (Source.stmtsReferences scope ss) code := by
  induction ss generalizing fresh code with
  | nil =>
      obtain ⟨rfl, _⟩ := stmts_nil_run.mp h
      exact .nil
  | cons s rest ih =>
      obtain ⟨hHead, hRest⟩ := List.forall_mem_cons.mp hss
      obtain ⟨_, _, _, hFirst, hOthers, rfl⟩ := stmts_cons_run.mp h
      rw [CodeRefers, Code.members_append]
      exact List.rel_append (hHead hFirst) (ih hRest hOthers)

/-- The code of every statement refers to what the statement refers to, by induction on the statement. -/
theorem referStmt (hKnown : scope.Known) (s : Stmt) : ReferStmt scope s := by
  induction s with
  | block statements hStatements => exact fun _ _ _ h => ReferStmt.stmts hStatements h
  | cond test thenBranch elseBranch hThen hElse =>
      intro fresh code fresh' h
      obtain ⟨_, _, _, _, _, elseCode, _, _, hTest, _, hLowerElse, hLowerThen, rfl⟩ :=
        stmt_cond_run.mp h
      have hElseCode : CodeRefers scope (Source.optionalReferences scope elseBranch) elseCode := by
        cases elseBranch with
        | none =>
            obtain ⟨rfl, _⟩ := run_pure_ok.mp hLowerElse
            exact .nil
        | some s => exact hElse s rfl hLowerElse
      simp only [CodeRefers, conditional, Code.members_append, Code.members_cons, List.cons_append,
        Code.members_nil, Instr.member?, Option.toList_none, List.nil_append, List.append_nil]
      exact List.rel_append ((refer hKnown test).condition hTest)
        (List.rel_append hElseCode (hThen hLowerThen))
  | loop test body hBody =>
      intro fresh code fresh' h
      obtain ⟨_, _, _, _, _, _, _, _, _, hTest, _, hLower, hAgain, rfl⟩ := stmt_loop_run.mp h
      simp only [CodeRefers, whileLoop, Code.members_append, Code.members_cons, List.cons_append,
        Code.members_nil, Instr.member?, Option.toList_none, List.nil_append, List.append_nil]
      exact List.rel_append ((refer hKnown test).condition hTest)
        (List.rel_append (hBody hLower) ((refer hKnown test).condition hAgain))
  | assign target value =>
      intro fresh code fresh' h
      rcases assign_run.mp h with ⟨_, _, hTarget, hName⟩ | ⟨_, _, _, hTarget, hElement⟩
      · exact refers_assignName hKnown hTarget hName
      · exact refers_assignElement hKnown hTarget hElement
  | ret value =>
      intro fresh code fresh' h
      cases value with
      | none =>
          obtain ⟨rfl, _⟩ := ret_none_run.mp h
          exact .nil
      | some e =>
          obtain ⟨_, _, hLower, rfl⟩ := ret_some_run.mp h
          rw [CodeRefers, Code.members_append]
          exact (List.append_nil _).symm ▸ (refer hKnown e).operand hLower
  | eval e =>
      intro fresh code fresh' h
      obtain ⟨l, hLower, rfl⟩ := stmt_eval_run.mp h
      rw [CodeRefers, members_discarded]
      exact (refer hKnown e hLower).all

end Statements

theorem members_closed (m : Code.Method) : members (closed m).body = members m.body := by
  unfold closed
  split
  · simp [Instr.member?]
  · rfl

/-- What lowering did with a method, in the scope in which its names are looked up. -/
theorem method_namedScope {program : Program} {m : MethodDecl} {lowered : Code.Method}
    (h : (method (.ofProgram program) m).run fresh = .ok lowered fresh') :
    (m.namedScope program).Known ∧
      ∃ body, (stmts (m.namedScope program) m.body).run fresh = .ok body fresh' ∧
        lowered = closed {
          name := m.name
          isPublic := m.isPublic
          isStatic := m.isStatic
          isVarargs := (m.namedScope program).method.isVarargs
          parameters := m.parameters.map variableOf
          returnType := .ofSource m.returnType
          body } := by
  obtain ⟨signature, body, hFound, hLower, rfl⟩ := method_run.mp h
  have hScope : m.namedScope program = ⟨.ofProgram program, signature⟩ := by
    rw [MethodDecl.namedScope, hFound, Option.getD_some]
  have hName : signature.name = m.name := by simpa using List.find?_some hFound
  rw [hScope]
  refine ⟨?_, body, hLower, rfl⟩
  rw [Scope.Known, hName]
  exact hFound

/-- The code of a method refers to what the method refers to, one for one and in the order of its
code. -/
theorem refers_method {program : Program} {m : MethodDecl} {lowered : Code.Method}
    (h : (method (.ofProgram program) m).run fresh = .ok lowered fresh') :
    CodeRefers (m.namedScope program) (m.references program) lowered.body := by
  obtain ⟨hKnown, body, hLower, rfl⟩ := method_namedScope h
  rw [CodeRefers, members_closed]
  exact ReferStmt.stmts (fun s _ => referStmt hKnown s) hLower

end MiniJava.Lowering
