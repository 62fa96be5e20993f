import MiniJava.Proofs.Lowering.Types

/-! Well-typed expressions become well-typed code. -/

namespace MiniJava.Lowering

open Code (CallKind Condition Context Instr Operand)
open Source (Expr Signature)

variable {scope : Scope} {fresh fresh' : Fresh}

/-- A lowered expression is well-typed, with a value of the type that the expression has. Its value is an
instruction that yields one, as every use of it needs. -/
structure Lowered.Typed (l : Lowered) (ty : Source.Ty) (c : Context) : Prop where
  code : CodeTyped l.code c
  value : l.value.Yields c
  exact : Exact l.value.valueType ty

/-- The operand of an expression is well-typed, with its code. Its type is exactly that of the
expression, so it can be passed on wherever the expression can. -/
structure OperandTyped (o : Operand) (code : List Instr) (ty : Source.Ty) (c : Context) : Prop where
  code : CodeTyped code c
  typed : o.Typed c
  exact : Exact o.ty ty

/-- Lowering a well-typed expression gives well-typed code. The types of the temporaries that it takes
are among what is to be found. -/
def LowersTyped (scope : Scope) (e : Expr) : Prop :=
  ∀ (use : Use) (fresh : Fresh) (l : Lowered) (fresh' : Fresh),
    (expr scope e use).run fresh = .ok l fresh' → Typeable scope fresh fresh' (l.Typed e.ty)

section Expressions

variable {code : List Instr}

theorem yields_operand {c : Context} {o : Operand} (h : (Instr.operand o).Yields c) : o.Typed c := by
  cases h
  assumption

/-- What holds of all uses of an expression holds of its use as an operand. -/
theorem LowersTyped.operand {e : Expr} (he : LowersTyped scope e) {o : Operand}
    (h : (operand scope e).run fresh = .ok (o, code) fresh') :
    Typeable scope fresh fresh' (OperandTyped o code e.ty) :=
  (he _ _ _ _ (operand_run.mp h)).imp fun _ _ hTyped =>
    ⟨hTyped.code, yields_operand hTyped.value, hTyped.exact⟩

/-- The condition of a boolean expression is typed: a truth value, or a comparison of integers. -/
theorem LowersTyped.condition {e : Expr} (he : LowersTyped scope e) (hBoolean : e.ty = .boolean)
    {test : Condition} (h : (condition scope e).run fresh = .ok (test, code) fresh') :
    Typeable scope fresh fresh' fun c => CodeTyped code c ∧ test.Typed c := by
  obtain ⟨value, hLower, hCondition⟩ := condition_run.mp h
  refine (he _ _ _ _ hLower).imp fun typeOf _ hTyped => ⟨hTyped.code, ?_⟩
  have hType := hTyped.exact.boolean hBoolean
  have hValue := hTyped.value
  cases hValue with
  | operand ho =>
      cases hCondition
      exact .single ho hType
  | comparison hOp hLeft hRight hLeftInt hRightInt =>
      rw [condition?, if_pos hOp] at hCondition
      cases hCondition
      exact .compare hOp hLeft hRight hLeftInt hRightInt
  | arithmetic hOp =>
      rw [condition?, if_neg (by simp [hOp])] at hCondition
      cases hCondition
  | _ => cases hCondition

/-- The operands of expressions are well-typed, one by one, and each has the type of its expression. -/
theorem LowersTyped.operands {es : List Expr} (hes : ∀ e ∈ es, LowersTyped scope e)
    {values : List Operand} (h : (operands scope es).run fresh = .ok (values, code) fresh') :
    Typeable scope fresh fresh' fun c => CodeTyped code c ∧ (∀ o ∈ values, o.Typed c) ∧
      List.Forall₂ (fun e o => Exact o.ty e.ty) es values := by
  induction es generalizing fresh values code with
  | nil =>
      obtain ⟨rfl, rfl, rfl⟩ := operands_nil_run.mp h
      exact .pure fun _ _ => ⟨.nil, List.forall_mem_nil _, .nil⟩
  | cons e rest ih =>
      obtain ⟨hHead, hRest⟩ := List.forall_mem_cons.mp hes
      obtain ⟨_, _, _, _, _, hFirst, hOthers, rfl, rfl⟩ := operands_cons_run.mp h
      refine ((hHead.operand hFirst).and (ih hRest hOthers)).imp ?_
      rintro typeOf - ⟨hHeadTyped, hCode, hValues, hExact⟩
      exact ⟨hHeadTyped.code.append hCode, List.forall_mem_cons.mpr ⟨hHeadTyped.typed, hValues⟩,
        .cons hHeadTyped.exact hExact⟩

theorem typed_finish {middle : Fresh} {mayStay : Bool} {value : Instr} {ty : Source.Ty} {l : Lowered}
    (h : (finish scope mayStay value code).run middle = .ok l fresh')
    (hTyped : Typeable scope fresh middle (Lowered.Typed ⟨value, code⟩ ty))
    (hValue : mayStay = false → value.valueType.isVoid = false) :
    Typeable scope fresh fresh' (l.Typed ty) := by
  rcases finish_run.mp h with ⟨_, rfl, rfl⟩ | ⟨hStay, name, hTemp, rfl⟩
  · exact hTyped
  · have hNotVoid := hValue (Bool.or_eq_false_iff.mp hStay).1
    refine (hTyped.and (.temp hTemp value.valueType)).imp ?_
    rintro typeOf - ⟨hTyped, hName⟩
    exact ⟨hTyped.code.snoc (.assign hName hTyped.value hNotVoid (.refl _)),
      .operand (.variable hName hNotVoid), hTyped.exact⟩

theorem typed_fillArray {c : Context} {array : String} {values : List Operand}
    (hArray : c.typeOf array = some .intArray) (hValues : ∀ o ∈ values, o.Typed c ∧ o.ty = .int32)
    (h : (fillArray array values).run fresh = .ok code fresh') : CodeTyped code c := by
  obtain ⟨_, rfl, _⟩ := fillArray_run.mp h
  intro i hi
  rcases List.mem_cons.mp hi with rfl | hi
  · exact .assign hArray (.newArray (.int _) rfl) rfl (.refl _)
  · obtain ⟨place, hPlace, rfl⟩ := List.mem_mapIdx.mp hi
    obtain ⟨hTyped, hInt⟩ := hValues _ (List.getElem_mem hPlace)
    exact .store hArray rfl (.int _) rfl (.operand hTyped) (.inl hInt)

/-- A well-typed name is that of a variable, or of a field in an instance method. The name of a class is
an expression only in front of a call. -/
theorem wellTyped_ident {name : String} {ty : Source.Ty}
    (hTyped : (Expr.ident name ty).wellTyped scope = true) :
    (∃ d, scope.method.lookup? name = some d ∧ d.ty = ty) ∨
      ∃ d, scope.method.lookup? name = none ∧ scope.symbols.field? name = some d ∧ d.ty = ty ∧
        scope.method.isStatic = false := by
  rw [Expr.wellTyped, Source.meaning] at hTyped
  cases hLookup : scope.method.lookup? name with
  | some d =>
      rw [hLookup] at hTyped
      exact .inl ⟨d, rfl, (of_decide_eq_true hTyped).symm⟩
  | none =>
      cases hField : scope.symbols.field? name with
      | some d =>
          simp only [hLookup, hField, Bool.and_eq_true, decide_eq_true_eq, Bool.not_eq_true'] at hTyped
          exact .inr ⟨d, rfl, rfl, hTyped.1.symm, hTyped.2⟩
      | none =>
          cases hClass : scope.symbols.isClassReference name <;>
            simp [hLookup, hField, hClass] at hTyped

/-- Only void calls are of void type. Nothing of void type can be declared, so no variable and no field
is. -/
theorem isVoid_of_wellTyped (hSound : scope.Sound) {e : Expr} (hTyped : e.wellTyped scope = true)
    (hVoid : e.ty ≠ .void) : e.ty.isVoid = false := by
  have hObject : ∀ className, (Source.Ty.object className).isObject = true →
      (Source.Ty.object className).isVoid = false := by
    intro className hIs
    exact decide_eq_false (of_decide_eq_true (Bool.and_eq_true_iff.mp hIs).2)
  induction e with
  | ident name ty =>
      rcases wellTyped_ident hTyped with ⟨d, hLookup, rfl⟩ | ⟨d, _, hField, rfl, _⟩
      · exact hSound.locals name d hLookup
      · exact hSound.fields name d hField
  | self ty =>
      simp only [Expr.wellTyped, Bool.and_eq_true, decide_eq_true_eq] at hTyped
      obtain rfl := hTyped.1
      exact hObject _ hSound.className
  | index base place ty hBase hPlace =>
      simp only [Expr.wellTyped, Bool.and_eq_true, decide_eq_true_eq] at hTyped
      obtain ⟨⟨⟨⟨hBaseTyped, _⟩, hArray⟩, _⟩, rfl⟩ := hTyped
      refine hBase hBaseTyped fun hBaseVoid => ?_
      rw [hBaseVoid] at hArray
      cases hArray
  | paren inner hInner => exact hInner hTyped hVoid
  | newObject className => exact hObject className hTyped
  | binary op left right ty =>
      simp only [Expr.wellTyped, Bool.and_eq_true, decide_eq_true_eq] at hTyped
      obtain rfl := hTyped.2
      change op.resultType.isVoid = false
      cases op <;> rfl
  | call receiver method arguments ty =>
      simp only [Expr.wellTyped, Bool.and_eq_true] at hTyped
      rcases Bool.or_eq_true_iff.mp hTyped.1.2 with hSame | hNot
      · exact (hVoid (of_decide_eq_true hSame)).elim
      · exact Bool.not_eq_true' _ |>.mp hNot
  | _ => rfl

theorem ty_bare (e : Expr) : e.bare.ty = e.ty := by
  induction e with
  | paren inner hInner => exact hInner
  | _ => rfl

theorem wellTyped_bare (e : Expr) : e.bare.wellTyped scope = e.wellTyped scope := by
  induction e with
  | paren inner hInner => exact hInner
  | _ => rfl

theorem ints_of_exact {arguments : List Expr} {os : List Operand}
    (hExact : List.Forall₂ (fun e o => Exact o.ty e.ty) arguments os)
    (hInts : ∀ e ∈ arguments, e.ty = .int) : ∀ o ∈ os, o.ty = .int32 := by
  induction hExact with
  | nil => exact List.forall_mem_nil _
  | cons hHead _ ih =>
      obtain ⟨hFirst, hRest⟩ := List.forall_mem_cons.mp hInts
      exact List.forall_mem_cons.mpr ⟨hHead.int hFirst, ih hRest⟩

/-- Arguments that fit the parameters become operands that fit the types of the parameters. Nothing is
lost on the way, because operands have the types of their expressions. -/
theorem fits_exact {arguments : List Expr} {os : List Operand} {tys : List Source.Ty}
    (hExact : List.Forall₂ (fun e o => Exact o.ty e.ty) arguments os)
    (hLength : arguments.length = tys.length)
    (hFit : (arguments.zip tys).all (fun (e, ty) => e.ty.fits ty) = true) :
    List.Forall₂ (fun o ty => o.ty.Fits (.ofSource ty)) os tys := by
  induction hExact generalizing tys with
  | nil =>
      obtain rfl := List.length_eq_zero_iff.mp hLength.symm
      exact .nil
  | cons hHead _ ih =>
      cases tys with
      | nil => cases hLength
      | cons ty tys =>
          rw [List.zip_cons_cons, List.all_cons, Bool.and_eq_true] at hFit
          exact .cons (hHead.fits hFit.1) (ih (Nat.succ.inj hLength) hFit.2)

/-- An array that is the only one of the trailing arguments is passed on as it is, to a parameter that is
such an array. -/
theorem fits_oneArray {arguments : List Expr} {os : List Operand}
    (hExact : List.Forall₂ (fun e o => Exact o.ty e.ty) arguments os)
    (hOne : isOneArray arguments = true)
    (hInts : arguments.all (fun e => e.ty = .intArray) = true) :
    List.Forall₂ (fun o ty => o.ty.Fits (.ofSource ty)) os [.intArray] := by
  cases hExact with
  | nil => cases hOne
  | cons hLast hMore =>
      cases hMore with
      | nil =>
          have hType := of_decide_eq_true (List.all_eq_true.mp hInts _ (List.mem_singleton_self _))
          exact .cons (hLast.fits (by rw [hType]; rfl)) .nil
      | cons => cases hOne

/-- The operands that are passed on fit the parameters: trailing ones are collected in an array of
integers. -/
theorem fits_collected {signature : Signature} {arguments : List Expr} {os values : List Operand}
    {method : String} (hSound : scope.Sound)
    (hMethod : scope.symbols.method? method = some signature)
    (hFit : Source.argumentsFit signature arguments = true)
    (hExact : List.Forall₂ (fun e o => Exact o.ty e.ty) arguments os)
    (h : (collect scope (((scope.symbols.method? method).filter (·.isVarargs)).map
      (·.parameters.length - 1)) arguments os).run fresh = .ok (values, code) fresh') :
    List.Forall₂ (fun o ty => o.ty.Fits (.ofSource ty)) values
      (signature.parameters.map (·.ty)) := by
  rw [hMethod] at h
  rw [Source.argumentsFit] at hFit
  cases hVarargs : signature.isVarargs with
  | false =>
      rw [hVarargs, if_neg Bool.false_ne_true, Bool.and_eq_true, decide_eq_true_eq] at hFit
      rw [Option.filter_some, hVarargs, if_neg Bool.false_ne_true] at h
      rcases collect_run.mp h with ⟨_, rfl, _, _⟩ | ⟨_, _, ⟨⟩, _⟩
      exact fits_exact hExact hFit.1 hFit.2
  | true =>
      obtain ⟨first, hTypes⟩ := hSound.varargs method signature hMethod hVarargs
      have hLength : signature.parameters.length - 1 = first.length := by
        rw [← List.length_map (·.ty), hTypes, List.length_append, List.length_singleton,
          Nat.add_sub_cancel]
      rw [Option.filter_some, hVarargs, if_pos rfl, Option.map_some, hLength] at h
      rw [hVarargs, if_pos rfl, hTypes, List.length_append, List.length_singleton,
        Nat.add_sub_cancel, Bool.and_eq_true, Bool.and_eq_true, decide_eq_true_eq] at hFit
      obtain ⟨⟨hEnough, hFirst⟩, hRest⟩ := hFit
      have hTaken : (arguments.take first.length).length = first.length :=
        List.length_take_of_le hEnough
      have hLeading : List.Forall₂ (fun o ty => o.ty.Fits (.ofSource ty)) (os.take first.length)
          first := by
        refine fits_exact (List.forall₂_take _ hExact) hTaken ?_
        have hZip : (arguments.take first.length ++ []).zip (first ++ [Source.Ty.intArray]) = _ :=
          List.zip_append hTaken
        rw [List.append_nil, List.zip_nil_left, List.append_nil] at hZip
        rwa [hZip] at hFirst
      rw [hTypes]
      rcases collect_run.mp h with ⟨hOne, rfl, _, _⟩ | ⟨_, array, ⟨⟩, hOne, _, _, rfl⟩
      · rw [Option.all_some] at hOne
        rw [if_pos hOne] at hRest
        have hTrailing := List.forall₂_drop first.length hExact
        rw [← List.take_append_drop first.length values]
        exact List.rel_append hLeading (fits_oneArray hTrailing hOne hRest)
      · exact List.rel_append hLeading (.cons (.inl rfl) .nil)

/-- What a call goes to: a class that its receiver names, or an object of the receiver's type. The two
are told apart as in lowering itself. -/
inductive Targets (scope : Scope) (receiver : Expr) : Operand → Prop
  | className {name : String} (hStatic : scope.staticTarget? receiver = some name) :
      Targets scope receiver (.classRef name)
  | object {o : Operand} (hStatic : scope.staticTarget? receiver = none)
      (hExact : Exact o.ty receiver.ty) (hObject : ∀ name, o ≠ .classRef name) :
      Targets scope receiver o

section Call

variable {receiver : Expr} {method : String} {arguments : List Expr} {ty : Source.Ty}
  {target : Operand}

/-- A target of the type of the class itself is one that lowering takes for it. So the typing of a call
and the collecting of its arguments agree on which method is called. -/
theorem Targets.targetsSelf (h : Targets scope receiver target)
    (hOwn : target.ty = .object scope.symbols.className) :
    scope.targetsSelf target receiver.ty = true := by
  cases h with
  | className hStatic => exact decide_eq_true (Code.Ty.object.inj hOwn)
  | object hStatic hExact hObject =>
      unfold Scope.targetsSelf
      split
      · exact (hObject _ rfl).elim
      · rw [hOwn] at hExact
        simp [hExact.object, Source.Ty.object]

/-- A call of the class itself is checked against the method that the class declares under the name. -/
theorem Targets.fitsDeclared (h : Targets scope receiver target)
    (hTyped : (Expr.call receiver method arguments ty).wellTyped scope = true)
    (hLength : asksLength receiver method arguments = false)
    (hSelf : scope.targetsSelf target receiver.ty = true) :
    Source.fitsDeclared scope method arguments ty = true := by
  simp only [Expr.wellTyped, hLength, Bool.false_eq_true, if_false, Bool.and_eq_true] at hTyped
  have hCall := hTyped.2
  rw [← staticTarget?_eq] at hCall
  cases h with
  | className hStatic =>
      obtain rfl := of_decide_eq_true hSelf
      rw [hStatic] at hCall
      simpa using hCall
  | object hStatic hExact hObject =>
      rw [hStatic] at hCall
      have hReceiver : receiver.ty = .object scope.symbols.className := by
        unfold Scope.targetsSelf at hSelf
        split at hSelf
        · exact (hObject _ rfl).elim
        · rcases hTy : receiver.ty with ⟨name, isArray⟩
          rw [hTy] at hSelf
          simp only [Bool.and_eq_true, Bool.not_eq_true', decide_eq_true_eq] at hSelf
          rw [hSelf.1, hSelf.2]
          rfl
      simp only [Bool.and_eq_true, hReceiver, ne_eq, not_true, decide_false, Bool.false_or] at hCall
      exact hCall.2

/-- For a call of the class itself, trailing arguments are collected exactly if the method that is
declared does so. -/
theorem fixedArity?_of_self (hSelf : scope.targetsSelf target receiver.ty = true) :
    scope.fixedArity? target receiver.ty method =
      ((scope.symbols.method? method).filter (·.isVarargs)).map (·.parameters.length - 1) :=
  if_pos hSelf

/-- What a call passes on fits the method, whether its arguments are collected or not. A collected array
is one of integers, as the parameter is. -/
theorem Targets.passes (h : Targets scope receiver target) (hSound : scope.Sound)
    (hTyped : (Expr.call receiver method arguments ty).wellTyped scope = true)
    (hLength : asksLength receiver method arguments = false) {os values : List Operand}
    {typeOf : String → Option Code.Ty}
    (hExact : List.Forall₂ (fun e o => Exact o.ty e.ty) arguments os)
    (hValues : ∀ o ∈ values, o.Typed (scope.context typeOf))
    (hCollect : (collect scope (scope.fixedArity? target receiver.ty method) arguments os).run fresh =
      .ok (values, code) fresh') :
    (scope.context typeOf).Passes target method values := by
  refine ⟨hValues, fun hOwn types hTypes _ => ?_⟩
  have hSelf := h.targetsSelf hOwn
  obtain ⟨signature, hMethod, rfl⟩ := Option.map_eq_some_iff.mp hTypes
  have hFit := h.fitsDeclared hTyped hLength hSelf
  rw [Source.fitsDeclared, hMethod] at hFit
  rw [fixedArity?_of_self hSelf] at hCollect
  have hFits := fits_collected hSound hMethod (Bool.and_eq_true_iff.mp hFit).2 hExact hCollect
  rw [List.forall₂_map_right_iff] at hFits ⊢
  exact hFits

/-- Arguments that are collected are integers, since a call that collects is well-typed only then. -/
theorem Targets.collectsInts (h : Targets scope receiver target)
    (hTyped : (Expr.call receiver method arguments ty).wellTyped scope = true)
    (hLength : asksLength receiver method arguments = false) {os : List Operand}
    (hExact : List.Forall₂ (fun e o => Exact o.ty e.ty) arguments os) {n : Nat}
    (hArity : scope.fixedArity? target receiver.ty method = some n)
    (hMany : isOneArray (arguments.drop n) = false) : ∀ o ∈ os.drop n, o.ty = .int32 := by
  have hSelf : scope.targetsSelf target receiver.ty = true := by
    by_contra hNot
    rw [Scope.fixedArity?, if_neg hNot] at hArity
    cases hArity
  rw [fixedArity?_of_self hSelf] at hArity
  obtain ⟨signature, hFound, rfl⟩ := Option.map_eq_some_iff.mp hArity
  obtain ⟨hMethod, hVarargs⟩ := Option.filter_eq_some_iff.mp hFound
  have hFit := h.fitsDeclared hTyped hLength hSelf
  simp only [Source.fitsDeclared, hMethod, Source.argumentsFit, hVarargs, if_true, List.length_map,
    hMany, Bool.false_eq_true, if_false, Bool.and_eq_true, List.all_eq_true,
    decide_eq_true_eq] at hFit
  exact ints_of_exact (List.forall₂_drop _ hExact) hFit.2.2

end Call

theorem typed_collect {arity : Option Nat} {arguments : List Expr} {os values : List Operand}
    (h : (collect scope arity arguments os).run fresh = .ok (values, code) fresh') :
    Typeable scope fresh fresh' fun c => (∀ o ∈ os, o.Typed c) →
      (∀ n, arity = some n → isOneArray (arguments.drop n) = false →
        ∀ o ∈ os.drop n, o.ty = .int32) → CodeTyped code c ∧ ∀ o ∈ values, o.Typed c := by
  rcases collect_run.mp h with ⟨_, rfl, rfl, rfl⟩ | ⟨n, array, rfl, hMany, hTemp, hFill, rfl⟩
  · exact .pure fun _ _ hTyped _ => ⟨.nil, hTyped⟩
  · refine (Typeable.temp hTemp .intArray).imp fun typeOf _ hArray hTyped hInts => ⟨?_, ?_⟩
    · exact typed_fillArray hArray
        (fun o ho => ⟨hTyped o (List.mem_of_mem_drop ho), hInts n rfl hMany o ho⟩) hFill
    · intro o ho
      rcases List.mem_append.mp ho with ho | ho
      · exact hTyped o (List.mem_of_mem_take ho)
      · obtain rfl := List.mem_singleton.mp ho
        exact .variable hArray rfl

theorem typed_shortCircuit {c : Context} {labels : Code.Label × Code.Label} {result : String}
    {test : Condition} {o : Operand} (hTest : test.Typed c)
    (hResult : c.typeOf result = some .boolean) (hCode : CodeTyped code c) (ho : o.Typed c)
    (hBoolean : o.ty = .boolean) :
    CodeTyped (shortCircuit labels (.variable result .boolean) test (o, code)) c := by
  have hEnter : CodeTyped [.branch test labels.1,
      .assign (.variable result .boolean) .boolean (.operand (.bool false)), .goto labels.2,
      .label labels.1] c := by
    simp only [CodeTyped, List.forall_mem_cons]
    exact ⟨.branch hTest, .assign hResult (.operand (.bool false)) rfl (.refl _), .goto _, .label _,
      List.forall_mem_nil _⟩
  have hLeave : CodeTyped [.assign (.variable result .boolean) .boolean (.operand o),
      .label labels.2] c := by
    simp only [CodeTyped, List.forall_mem_cons]
    exact ⟨.assign hResult (.operand ho) ho.isVoid (.inl hBoolean), .label _,
      List.forall_mem_nil _⟩
  exact (hEnter.append hCode).append hLeave

/-- An operation on operands of the type that it asks for yields a value of the type that the source
gives to it. -/
theorem yields_operation {c : Context} {op : Source.BinaryOp} (hOp : op ≠ .and) {a b : Operand}
    (ha : a.Typed c) (hb : b.Typed c) (hLeft : Exact a.ty op.operandType)
    (hRight : Exact b.ty op.operandType) :
    (Instr.binary (operation op) a b (.ofSource op.resultType)).Yields c := by
  cases op with
  | and => exact (hOp rfl).elim
  | add | sub | mul | div => exact .arithmetic rfl ha hb (hLeft.int rfl) (hRight.int rfl)
  | less | greater | lessEqual | greaterEqual =>
      exact .comparison rfl ha hb (hLeft.int rfl) (hRight.int rfl)

theorem isVoid_resultType (op : Source.BinaryOp) :
    (Code.Ty.ofSource op.resultType).isVoid = false := by
  cases op <;> rfl

/-- What a call goes to is typed, with the code of its receiver. -/
theorem typed_callTarget {receiver : Expr}
    (hReceiver : scope.staticTarget? receiver = none → LowersTyped scope receiver) {kind : CallKind}
    {target : Operand}
    (h : (callTarget scope receiver (operand scope receiver)).run fresh =
      .ok (kind, target, code) fresh') :
    Typeable scope fresh fresh' fun c => CodeTyped code c ∧ Targets scope receiver target ∧
      ((kind = .invokeStatic ∧ ∃ name, target = .classRef name) ∨
        (kind = .invokeVirtual ∧ scope.staticTarget? receiver = none ∧ target.Typed c ∧
          Exact target.ty receiver.ty)) := by
  rcases callTarget_run.mp h with ⟨name, hStatic, rfl, rfl, rfl, rfl⟩ | ⟨hStatic, rfl, hObject⟩
  · exact .pure fun _ _ => ⟨.nil, .className hStatic, .inl ⟨rfl, name, rfl⟩⟩
  · refine ((hReceiver hStatic).operand hObject).imp fun _ _ hTyped => ?_
    refine ⟨hTyped.code, .object hStatic hTyped.exact ?_, .inr ⟨rfl, hStatic, hTyped.typed, hTyped.exact⟩⟩
    rintro name rfl
    cases hTyped.typed

/-- A name becomes a variable of its declared type, or a temporary of the type of the field. -/
theorem typed_ident (hSound : scope.Sound) {name : String} {ty : Source.Ty}
    (hTyped : (Expr.ident name ty).wellTyped scope = true) : LowersTyped scope (.ident name ty) := by
  intro use fresh l fresh' h
  rcases wellTyped_ident hTyped with ⟨d, hLookup, rfl⟩ | ⟨d, hLookup, hField, rfl, hInstance⟩
  · rcases identifier_run.mp h with ⟨_, hFound, rfl, rfl⟩ | ⟨_, hNone, _⟩ | ⟨hNone, _⟩
    · obtain rfl := Option.some.inj (hLookup.symm.trans hFound)
      exact .pure fun _ hDeclares => ⟨.nil, .operand (.variable (hDeclares name d hLookup)
        (isVoid_ofSource_of (hSound.locals name d hLookup))), .inl rfl⟩
    · rw [hLookup] at hNone
      cases hNone
    · rw [hLookup] at hNone
      cases hNone
  · have hVisible := (visibleField?_eq hSound.known hLookup).trans hField
    have hValue := isVoid_ofSource_of (hSound.fields name d hField)
    rcases identifier_run.mp h with ⟨_, hFound, _⟩ | ⟨_, _, hFound, hFinish⟩ | ⟨_, hNone, _⟩
    · rw [hLookup] at hFound
      cases hFound
    · obtain rfl := Option.some.inj (hVisible.symm.trans hFound)
      have hGet : Typeable scope fresh fresh
          (Lowered.Typed ⟨.getField scope.self name (.ofSource d.ty), []⟩ d.ty) :=
        .pure fun _ _ => ⟨.nil, .getField hInstance hValue, .inl rfl⟩
      exact typed_finish hFinish hGet (fun _ => hValue)
    · rw [hVisible] at hNone
      cases hNone

/-- An item has the type of the items of its array, which is in a variable. The place is an integer, as
in the program. -/
theorem typed_index (hSound : scope.Sound) {base place : Expr} {ty : Source.Ty}
    (hBase : base.wellTyped scope = true → LowersTyped scope base)
    (hPlace : place.wellTyped scope = true → LowersTyped scope place)
    (hTyped : (Expr.index base place ty).wellTyped scope = true) :
    LowersTyped scope (.index base place ty) := by
  intro use fresh l fresh' h
  have hIndexTyped := hTyped
  simp only [Expr.wellTyped, Bool.and_eq_true, decide_eq_true_eq] at hTyped
  obtain ⟨⟨⟨⟨hBaseTyped, hPlaceTyped⟩, hArray⟩, hInt⟩, rfl⟩ := hTyped
  obtain ⟨o, _, _, i, _, _, array, hLowerBase, hLowerPlace, hName, hFinish⟩ :=
    expr_index_run.mp h
  have hVoid : base.ty.isVoid = false := by
    refine isVoid_of_wellTyped hSound hBaseTyped fun hBaseVoid => ?_
    rw [hBaseVoid] at hArray
    cases hArray
  have hElementary := isElementary_element hVoid
  have hItem : (Code.Ty.ofSource base.ty.element).isVoid = false := isVoid_ofSource_of hVoid
  refine typed_finish hFinish ((((hBase hBaseTyped).operand hLowerBase).and
    ((hPlace hPlaceTyped).operand hLowerPlace)).imp ?_) (fun _ => hItem)
  rintro typeOf - ⟨hBase, hPlace⟩
  refine ⟨hBase.code.append hPlace.code, .operand ?_, .inl rfl⟩
  obtain ⟨name, rfl, hOf⟩ := hBase.typed.variable_of_array (hBase.exact.array hArray)
  cases hName
  exact .element hOf hElementary hPlace.typed (hPlace.exact.int hInt)

/-- An array literal becomes a temporary of array type, filled with integers. The temporary has its type
from the allocation. -/
theorem typed_arrayLiteral {elements : List Expr}
    (hElements : ∀ e ∈ elements, e.wellTyped scope = true → LowersTyped scope e)
    (hTyped : (Expr.arrayLiteral elements).wellTyped scope = true) :
    LowersTyped scope (.arrayLiteral elements) := by
  intro use fresh l fresh' h
  simp only [Expr.wellTyped, Bool.and_eq_true, wellTypedAll_iff, List.all_eq_true,
    decide_eq_true_eq] at hTyped
  obtain ⟨values, _, _, array, _, hLower, hTemp, hFill, rfl⟩ := expr_arrayLiteral_run.mp h
  have hTypedElements := LowersTyped.operands (fun e he => hElements e he (hTyped.1 e he)) hLower
  refine (hTypedElements.and (.temp hTemp .intArray)).imp ?_
  rintro typeOf - ⟨⟨hCode, hValues, hExact⟩, hArray⟩
  have hInts := ints_of_exact hExact hTyped.2
  exact ⟨hCode.append (typed_fillArray hArray (fun o ho => ⟨hValues o ho, hInts o ho⟩) hFill),
    .operand (.variable hArray rfl), .inl rfl⟩

/-- An operator gives integers or booleans as typing says, and its operands are of the types that it asks
for. -/
theorem typed_binary {op : Source.BinaryOp} {left right : Expr} {ty : Source.Ty}
    (hLeft : left.wellTyped scope = true → LowersTyped scope left)
    (hRight : right.wellTyped scope = true → LowersTyped scope right)
    (hTyped : (Expr.binary op left right ty).wellTyped scope = true) :
    LowersTyped scope (.binary op left right ty) := by
  intro use fresh l fresh' h
  simp only [Expr.wellTyped, Bool.and_eq_true, decide_eq_true_eq] at hTyped
  obtain ⟨⟨⟨⟨hLeftTyped, hRightTyped⟩, hLeftType⟩, hRightType⟩, rfl⟩ := hTyped
  by_cases hOp : op = .and
  · subst hOp
    obtain ⟨test, leftCode, _, labels, _, result, _, o, rightCode, hLowerLeft, hLabels, hTemp,
      hLowerRight, rfl⟩ := expr_and_run.mp h
    rw [newIfLabels_run] at hLabels
    obtain ⟨rfl, rfl⟩ := hLabels
    have hRest := (Typeable.temp hTemp .boolean).and ((hRight hRightTyped).operand hLowerRight)
    refine (((hLeft hLeftTyped).condition hLeftType hLowerLeft).and hRest.label).imp ?_
    rintro typeOf - ⟨⟨hCode, hTest⟩, hResult, hRight⟩
    refine ⟨hCode.append (typed_shortCircuit hTest hResult hRight.code hRight.typed
      (hRight.exact.boolean hRightType)), .operand (.variable hResult rfl), .inl rfl⟩
  · obtain ⟨_, _, _, _, _, _, hLowerLeft, hLowerRight, hFinish⟩ := (expr_binary_run hOp).mp h
    refine typed_finish hFinish ((((hLeft hLeftTyped).operand hLowerLeft).and
      ((hRight hRightTyped).operand hLowerRight)).imp ?_) (fun _ => isVoid_resultType op)
    rintro typeOf - ⟨hLeft, hRight⟩
    exact ⟨hLeft.code.append hRight.code, yields_operation hOp hLeft.typed hRight.typed
      (hLeftType ▸ hLeft.exact) (hRightType ▸ hRight.exact), .inl rfl⟩

section Calls

variable {receiver : Expr} {method : String} {arguments : List Expr} {ty : Source.Ty}

/-- The length of an array is asked for. -/
theorem typed_length (hReceiver : receiver.wellTyped scope = true → LowersTyped scope receiver)
    (hLength : asksLength receiver method arguments = true)
    (hTyped : (Expr.call receiver method arguments ty).wellTyped scope = true) :
    LowersTyped scope (.call receiver method arguments ty) := by
  intro use fresh l fresh' h
  obtain ⟨_, _, _, hLower, hFinish⟩ := (expr_length_run hLength).mp h
  have hArray : receiver.ty.isArray = true := (Bool.and_eq_true_iff.mp hLength).2
  simp only [Expr.wellTyped, hLength, if_true, Bool.and_eq_true, decide_eq_true_eq] at hTyped
  obtain ⟨_, hReceiverTyped, rfl⟩ := hTyped
  refine typed_finish hFinish (((hReceiver hReceiverTyped).operand hLower).imp
    fun _ _ hReceiver => ?_) (fun _ => rfl)
  exact ⟨hReceiver.code, .arrayLength hReceiver.typed (hReceiver.exact.array hArray), .inl rfl⟩

/-- A call is typed with the type that the program gives it, and passes on arguments that fit. -/
theorem typed_callMethod (hSound : scope.Sound)
    (hReceiver : receiver.wellTyped scope = true → LowersTyped scope receiver)
    (hArguments : ∀ e ∈ arguments, e.wellTyped scope = true → LowersTyped scope e)
    (hLength : asksLength receiver method arguments = false)
    (hTyped : (Expr.call receiver method arguments ty).wellTyped scope = true) :
    LowersTyped scope (.call receiver method arguments ty) := by
  intro use fresh l fresh' h
  obtain ⟨kind, target, _, _, os, _, _, values, _, _, hTarget, hLower, hCollect, hFinish⟩ :=
    (expr_call_run hLength).mp h
  have hArgumentsTyped : ∀ e ∈ arguments, e.wellTyped scope = true := by
    simp only [Expr.wellTyped, Bool.and_eq_true] at hTyped
    exact wellTypedAll_iff.mp hTyped.1.1.1
  have hObject : scope.staticTarget? receiver = none →
      receiver.wellTyped scope = true ∧ receiver.ty.isObject = true := by
    intro hStatic
    simp only [Expr.wellTyped, hLength, Bool.false_eq_true, if_false, ← staticTarget?_eq,
      hStatic, Bool.and_eq_true] at hTyped
    exact hTyped.2.1
  have hCall := (((typed_callTarget (fun hStatic => hReceiver (hObject hStatic).1) hTarget).and
    (LowersTyped.operands (fun e he => hArguments e he (hArgumentsTyped e he)) hLower)).and
    (typed_collect hCollect))
  obtain ⟨hUse, hFinish⟩ := (finishCall_run rfl).mp hFinish
  refine typed_finish hFinish (hCall.imp ?_) (fun hStay => hUse ?_)
  · rintro typeOf - ⟨⟨⟨hTargetCode, hTargets, hKind⟩, hCode, hOperands, hExact⟩, hCollected⟩
    obtain ⟨hCollectCode, hValues⟩ := hCollected hOperands fun n hArity hMany =>
      hTargets.collectsInts hTyped hLength hExact hArity hMany
    have hPasses := hTargets.passes hSound hTyped hLength hExact hValues hCollect
    refine ⟨(hTargetCode.append hCode).append hCollectCode, ?_, .inl rfl⟩
    rcases hKind with ⟨rfl, name, rfl⟩ | ⟨rfl, hStatic, hTargetTyped, hTargetExact⟩
    · exact .callStatic hPasses
    · exact .callVirtual hTargetTyped (hTargetExact.isObject (hObject hStatic).2) hPasses
  · cases use <;> simp at hStay ⊢

end Calls

/-- Every well-typed expression becomes well-typed code, by induction on the expression. The types of its
temporaries are found on the way. -/
theorem lowersTyped (hSound : scope.Sound) {e : Expr} (hTyped : e.wellTyped scope = true) :
    LowersTyped scope e := by
  induction e with
  | intLiteral value | boolLiteral value =>
      intro use fresh l fresh' h
      obtain ⟨rfl, rfl⟩ := run_pure_ok.mp h
      exact .pure fun _ _ => ⟨.nil, .operand (by constructor), .inl rfl⟩
  | self ty =>
      intro use fresh l fresh' h
      obtain ⟨rfl, rfl⟩ := run_pure_ok.mp h
      simp only [Expr.wellTyped, Bool.and_eq_true, decide_eq_true_eq, Bool.not_eq_true'] at hTyped
      obtain ⟨rfl, hInstance⟩ := hTyped
      exact .pure fun _ _ =>
        ⟨.nil, .operand (.self hInstance), .inr ⟨_, rfl, rfl, hSound.className⟩⟩
  | ident name ty => exact typed_ident hSound hTyped
  | index base place ty hBase hPlace => exact typed_index hSound hBase hPlace hTyped
  | paren inner hInner => exact hInner hTyped
  | not operand hOperand =>
      intro use fresh l fresh' h
      simp only [Expr.wellTyped, Bool.and_eq_true, decide_eq_true_eq] at hTyped
      obtain ⟨_, _, _, hLower, hFinish⟩ := expr_not_run.mp h
      refine typed_finish hFinish (((hOperand hTyped.1).operand hLower).imp fun _ _ hOperand => ?_)
        (fun _ => rfl)
      exact ⟨hOperand.code, .not hOperand.typed (hOperand.exact.boolean hTyped.2), .inl rfl⟩
  | newArray size hSize =>
      intro use fresh l fresh' h
      simp only [Expr.wellTyped, Bool.and_eq_true, decide_eq_true_eq] at hTyped
      obtain ⟨_, _, _, hLower, hFinish⟩ := expr_newArray_run.mp h
      refine typed_finish hFinish (((hSize hTyped.1).operand hLower).imp fun _ _ hSize => ?_)
        (fun _ => rfl)
      exact ⟨hSize.code, .newArray hSize.typed (hSize.exact.int hTyped.2), .inl rfl⟩
  | newObject className =>
      intro use fresh l fresh' h
      obtain ⟨object, hTemp, rfl⟩ := expr_newObject_run.mp h
      refine (Typeable.temp hTemp (.object className)).imp fun _ _ hName => ⟨?_, ?_, ?_⟩
      · rw [newObjectCode_eq]
        exact List.forall_mem_cons.mpr
          ⟨.allocation hName, List.forall_mem_singleton.mpr (.construction hName)⟩
      · exact .operand (.variable hName rfl)
      · exact .inr ⟨className, rfl, rfl, hTyped⟩
  | arrayLiteral elements hElements => exact typed_arrayLiteral hElements hTyped
  | binary op left right ty hLeft hRight => exact typed_binary hLeft hRight hTyped
  | call receiver method arguments ty hReceiver hArguments =>
      cases hLength : asksLength receiver method arguments with
      | true => exact typed_length hReceiver hLength hTyped
      | false => exact typed_callMethod hSound hReceiver hArguments hLength hTyped

end Expressions

end MiniJava.Lowering
