import MiniJava.Proofs.Lowering.Typing
import MiniJava.Proofs.Source.Packs

/-! Lowering a well-typed program succeeds. Typing rules out every failure: names resolve, arrays are
in variables where their items are asked for, and void calls are not used as values. -/

namespace MiniJava.Lowering

open Code (CallKind Condition Instr Operand)
open Source (Expr MethodDecl Program Stmt SymbolTable)

variable {scope : Scope}

/-- What lowering gives where an operand or a condition is asked for: an operand, or a comparison for
a condition. -/
def Testable (use : Use) (value : Instr) : Prop :=
  (∃ o, value = .operand o) ∨
    use = .condition ∧ ∃ op left right ty, value = .binary op left right ty ∧ op.isComparison = true

theorem testable_finish {use : Use} {mayStay : Bool} {value : Instr} {code : List Instr}
    {l : Lowered} {fresh fresh' : Fresh}
    (h : (finish scope mayStay value code).run fresh = .ok l fresh')
    (hStay : mayStay = true → Testable use value) : Testable use l.value := by
  rcases finish_run.mp h with ⟨hKept, rfl, _⟩ | ⟨_, _, _, rfl⟩
  · rcases Bool.or_eq_true_iff.mp hKept with hMay | hPlain
    · exact hStay hMay
    · cases value with
      | operand o => exact .inl ⟨o, rfl⟩
      | _ => cases hPlain
  · exact .inl ⟨_, rfl⟩

/-- Where an operand is asked for, there is one, and a condition can always be tested. This is what makes
the inner errors for other values unreachable. -/
theorem testable_expr {e : Expr} {use : Use} (hUse : use = .value ∨ use = .condition) {l : Lowered}
    {fresh fresh' : Fresh} (h : (expr scope e use).run fresh = .ok l fresh') :
    Testable use l.value := by
  have hNoRhs : decide (use = .assignRhs) = true → ∀ value, Testable use value := by
    intro hRhs
    rcases hUse with rfl | rfl <;> cases of_decide_eq_true hRhs
  induction e with
  | intLiteral value | boolLiteral value | self ty =>
      obtain ⟨rfl, _⟩ := run_pure_ok.mp h
      exact .inl ⟨_, rfl⟩
  | ident name ty =>
      rcases identifier_run.mp h with ⟨_, _, rfl, _⟩ | ⟨_, _, _, hFinish⟩ | ⟨_, _, _, rfl, _⟩
      · exact .inl ⟨_, rfl⟩
      · exact testable_finish hFinish nofun
      · exact .inl ⟨_, rfl⟩
  | index base place ty =>
      obtain ⟨_, _, _, _, _, _, _, _, _, _, hFinish⟩ := expr_index_run.mp h
      exact testable_finish hFinish fun hStay => hNoRhs hStay _
  | paren inner hInner => exact hInner h
  | not operand =>
      obtain ⟨_, _, _, _, hFinish⟩ := expr_not_run.mp h
      exact testable_finish hFinish fun hStay => hNoRhs hStay _
  | newArray size =>
      obtain ⟨_, _, _, _, hFinish⟩ := expr_newArray_run.mp h
      exact testable_finish hFinish fun hStay => hNoRhs hStay _
  | newObject className =>
      obtain ⟨_, _, rfl⟩ := expr_newObject_run.mp h
      exact .inl ⟨_, rfl⟩
  | arrayLiteral elements =>
      obtain ⟨_, _, _, _, _, _, _, _, rfl⟩ := expr_arrayLiteral_run.mp h
      exact .inl ⟨_, rfl⟩
  | binary op left right ty =>
      by_cases hOp : op = .and
      · subst hOp
        obtain ⟨_, _, _, _, _, _, _, _, _, _, _, _, _, rfl⟩ := expr_and_run.mp h
        exact .inl ⟨_, rfl⟩
      · obtain ⟨_, _, _, _, _, _, _, _, hFinish⟩ := (expr_binary_run hOp).mp h
        refine testable_finish hFinish fun hStay => ?_
        rcases hUse with rfl | rfl
        · cases hStay
        · exact .inr ⟨rfl, _, _, _, _, rfl, hStay⟩
  | call receiver method arguments ty =>
      cases hLength : asksLength receiver method arguments with
      | true =>
          obtain ⟨_, _, _, _, hFinish⟩ := (expr_length_run hLength).mp h
          exact testable_finish hFinish fun hStay => hNoRhs hStay _
      | false =>
          obtain ⟨_, _, _, _, _, _, _, _, _, _, _, _, _, hFinish⟩ := (expr_call_run hLength).mp h
          refine testable_finish ((finishCall_run rfl).mp hFinish).2 fun hStay => ?_
          rcases hUse with rfl | rfl <;> simp at hStay

theorem finish_total (scope : Scope) (mayStay : Bool) (value : Instr) (code : List Instr) (fresh : Fresh) :
    ∃ l fresh', (finish scope mayStay value code).run fresh = .ok l fresh' := by
  cases hStay : (mayStay || isPlain value) with
  | true => exact ⟨_, _, finish_run.mpr (.inl ⟨hStay, rfl, rfl⟩)⟩
  | false => exact ⟨_, _, finish_run.mpr (.inr ⟨hStay, _, newTemp_run scope fresh, rfl⟩)⟩

theorem fillArray_total {array : String} {values : List Operand}
    (hLength : values.length < Source.arrayLimit) (fresh : Fresh) :
    ∃ code, (fillArray array values).run fresh = .ok code fresh :=
  ⟨_, fillArray_run.mpr ⟨hLength, rfl, rfl⟩⟩

/-- An expression can be lowered for every use that its type allows. A call without a result can be
lowered too, where no value is asked for. -/
def LowersAlways (scope : Scope) (e : Expr) : Prop :=
  ∀ (use : Use) (fresh : Fresh), (use = .value ∨ use = .condition → e.ty ≠ .void) →
    ∃ l fresh', (expr scope e use).run fresh = .ok l fresh'

theorem LowersAlways.operand {e : Expr} (he : LowersAlways scope e) (hVoid : e.ty ≠ .void)
    (fresh : Fresh) : ∃ o code fresh', (operand scope e).run fresh = .ok (o, code) fresh' := by
  obtain ⟨⟨value, code⟩, fresh', hLower⟩ := he .value fresh fun _ => hVoid
  rcases testable_expr (.inl rfl) hLower with ⟨o, hOperand⟩ | ⟨hUse, _⟩
  · obtain rfl : value = .operand o := hOperand
    exact ⟨o, code, fresh', operand_run.mpr hLower⟩
  · cases hUse

theorem LowersAlways.condition {e : Expr} (he : LowersAlways scope e) (hVoid : e.ty ≠ .void)
    (fresh : Fresh) : ∃ c code fresh', (condition scope e).run fresh = .ok (c, code) fresh' := by
  obtain ⟨⟨value, code⟩, fresh', hLower⟩ := he .condition fresh fun _ => hVoid
  rcases testable_expr (.inr rfl) hLower with ⟨o, hOperand⟩ | ⟨_, op, left, right, ty, hValue, hOp⟩
  · obtain rfl : value = .operand o := hOperand
    exact ⟨_, code, fresh', condition_run.mpr ⟨_, hLower, rfl⟩⟩
  · obtain rfl : value = .binary op left right ty := hValue
    exact ⟨_, code, fresh', condition_run.mpr ⟨_, hLower, if_pos hOp⟩⟩

theorem LowersAlways.operands {es : List Expr} (hes : ∀ e ∈ es, LowersAlways scope e)
    (hVoid : ∀ e ∈ es, e.ty ≠ .void) (fresh : Fresh) :
    ∃ values code fresh', (operands scope es).run fresh = .ok (values, code) fresh' ∧
      values.length = es.length := by
  induction es generalizing fresh with
  | nil => exact ⟨_, _, _, operands_nil_run.mpr ⟨rfl, rfl, rfl⟩, rfl⟩
  | cons e rest ih =>
      obtain ⟨hHead, hRest⟩ := List.forall_mem_cons.mp hes
      obtain ⟨hHeadVoid, hRestVoid⟩ := List.forall_mem_cons.mp hVoid
      obtain ⟨o, code, fresh₁, hFirst⟩ := hHead.operand hHeadVoid fresh
      obtain ⟨values, others, fresh₂, hOthers, hLength⟩ := ih hRest hRestVoid fresh₁
      exact ⟨_, _, _, operands_cons_run.mpr ⟨o, code, fresh₁, values, others, hFirst, hOthers, rfl, rfl⟩,
        congrArg (· + 1) hLength⟩

theorem collect_total (scope : Scope) {arity : Option Nat} (arguments : List Expr)
    {os : List Operand} (hLimit : ∀ n, arity = some n → (os.drop n).length < Source.arrayLimit)
    (fresh : Fresh) :
    ∃ values code fresh', (collect scope arity arguments os).run fresh = .ok (values, code) fresh' := by
  cases hOne : arity.all fun n => isOneArray (arguments.drop n) with
  | true => exact ⟨_, _, _, collect_run.mpr (.inl ⟨hOne, rfl, rfl, rfl⟩)⟩
  | false =>
      cases arity with
      | none => cases hOne
      | some n =>
          obtain ⟨code, hFill⟩ := fillArray_total (hLimit n rfl) _
          exact ⟨_, code, _, collect_run.mpr
            (.inr ⟨n, _, rfl, hOne, newTemp_run scope fresh, hFill, rfl⟩)⟩

/-- An array is in a variable: in a declared one, or in the temporary into which it was put. So its items
can be named. -/
theorem variable_of_isArray (hSound : scope.Sound) {e : Expr} (hTyped : e.wellTyped scope = true)
    (hArray : e.ty.isArray = true) {o : Operand} {code : List Instr} {fresh fresh' : Fresh}
    (h : (operand scope e).run fresh = .ok (o, code) fresh') : ∃ array, o.variableName? = some array := by
  obtain ⟨_, _, hOperand⟩ := ((lowersTyped hSound hTyped).operand h).exists_types
  obtain ⟨array, rfl, _⟩ := hOperand.typed.variable_of_array (hOperand.exact.array hArray)
  exact ⟨array, rfl⟩

theorem ne_void_of_isArray {ty : Source.Ty} (h : ty.isArray = true) : ty ≠ .void := by
  rintro rfl
  cases h

theorem ne_void_of_fits {ty expected : Source.Ty} (h : ty.fits expected = true)
    (hExpected : expected ≠ .void) : ty ≠ .void := by
  rintro rfl
  rcases Bool.or_eq_true_iff.mp h with hSame | hObjects
  · exact hExpected (of_decide_eq_true hSame).symm
  · cases (Bool.and_eq_true_iff.mp hObjects).1

/-- Parentheses do not change how many values are collected in an expression. -/
theorem packsFit_bare (e : Expr) : e.bare.packsFit scope = e.packsFit scope := by
  induction e with
  | paren inner hInner => exact hInner
  | _ => rfl

theorem ne_void_of_isVoid {ty : Source.Ty} (h : ty.isVoid = false) : ty ≠ .void := by
  rintro rfl
  cases h

theorem ne_void_of_isObject {ty : Source.Ty} (h : ty.isObject = true) : ty ≠ .void := by
  rintro rfl
  cases h

/-- What a call goes to is a class exactly where its receiver names one. In every other case the receiver
is lowered, which succeeds for a well-typed one. -/
theorem callTarget_total (hSound : scope.Sound) (receiver : Expr)
    (hReceiver : scope.staticTarget? receiver = none → receiver.wellTyped scope = true ∧
      receiver.ty.isObject = true ∧ LowersAlways scope receiver) (fresh : Fresh) :
    ∃ kind target code fresh',
      (callTarget scope receiver (operand scope receiver)).run fresh = .ok (kind, target, code) fresh' ∧
      ∀ className, target = .classRef className ↔ scope.staticTarget? receiver = some className := by
  cases hStatic : scope.staticTarget? receiver with
  | some className =>
      refine ⟨_, _, _, _, callTarget_run.mpr (.inl ⟨className, hStatic, rfl, rfl, rfl, rfl⟩), ?_⟩
      simp
  | none =>
      obtain ⟨hTyped, hObject, hLowers⟩ := hReceiver hStatic
      obtain ⟨target, code, fresh', hLower⟩ := hLowers.operand (ne_void_of_isObject hObject) fresh
      refine ⟨_, target, code, fresh', callTarget_run.mpr (.inr ⟨hStatic, rfl, hLower⟩), ?_⟩
      obtain ⟨_, _, hOperand⟩ := ((lowersTyped hSound hTyped).operand hLower).exists_types
      refine fun className => ⟨?_, nofun⟩
      rintro rfl
      cases hOperand.typed

/-- An item can be read since its array, being well-typed, is in a variable. The place may be any
operand. -/
theorem lowersAlways_index (hSound : scope.Sound) {base place : Expr} {ty : Source.Ty}
    (hBase : base.wellTyped scope = true → base.packsFit scope = true → LowersAlways scope base)
    (hPlace : place.wellTyped scope = true → place.packsFit scope = true → LowersAlways scope place)
    (hTyped : (Expr.index base place ty).wellTyped scope = true)
    (hPacks : (Expr.index base place ty).packsFit scope = true) :
    LowersAlways scope (.index base place ty) := by
  intro use fresh _
  simp only [Expr.wellTyped, Bool.and_eq_true, decide_eq_true_eq] at hTyped
  obtain ⟨⟨⟨⟨hBaseTyped, hPlaceTyped⟩, hArray⟩, hInt⟩, rfl⟩ := hTyped
  obtain ⟨hBasePacks, hPlacePacks⟩ := Bool.and_eq_true_iff.mp hPacks
  obtain ⟨o, baseCode, fresh₁, hLowerBase⟩ :=
    (hBase hBaseTyped hBasePacks).operand (ne_void_of_isArray hArray) fresh
  obtain ⟨i, placeCode, fresh₂, hLowerPlace⟩ :=
    (hPlace hPlaceTyped hPlacePacks).operand (by rw [hInt]; decide) fresh₁
  obtain ⟨array, hName⟩ := variable_of_isArray hSound hBaseTyped hArray hLowerBase
  obtain ⟨l, fresh', hFinish⟩ := finish_total scope _ _ _ fresh₂
  exact ⟨l, fresh', expr_index_run.mpr
    ⟨o, baseCode, fresh₁, i, placeCode, fresh₂, array, hLowerBase, hLowerPlace, hName, hFinish⟩⟩

theorem lowersAlways_binary {op : Source.BinaryOp} {left right : Expr} {ty : Source.Ty}
    (hLeft : left.wellTyped scope = true → left.packsFit scope = true → LowersAlways scope left)
    (hRight : right.wellTyped scope = true → right.packsFit scope = true → LowersAlways scope right)
    (hTyped : (Expr.binary op left right ty).wellTyped scope = true)
    (hPacks : (Expr.binary op left right ty).packsFit scope = true) :
    LowersAlways scope (.binary op left right ty) := by
  intro use fresh _
  simp only [Expr.wellTyped, Bool.and_eq_true, decide_eq_true_eq] at hTyped
  obtain ⟨⟨⟨⟨hLeftTyped, hRightTyped⟩, hLeftType⟩, hRightType⟩, rfl⟩ := hTyped
  obtain ⟨hLeftPacks, hRightPacks⟩ := Bool.and_eq_true_iff.mp hPacks
  have hVoid : op.operandType ≠ .void := by cases op <;> decide
  by_cases hOp : op = .and
  · subst hOp
    obtain ⟨test, leftCode, fresh₁, hLowerLeft⟩ :=
      (hLeft hLeftTyped hLeftPacks).condition (hLeftType ▸ hVoid) fresh
    have hTemp := newTemp_run scope { fresh₁ with nextLabel := fresh₁.nextLabel + 1 }
    obtain ⟨o, rightCode, fresh', hLowerRight⟩ :=
      (hRight hRightTyped hRightPacks).operand (hRightType ▸ hVoid) _
    exact ⟨_, fresh', expr_and_run.mpr ⟨test, leftCode, fresh₁, _, _, _, _, o, rightCode,
      hLowerLeft, newIfLabels_run fresh₁, hTemp, hLowerRight, rfl⟩⟩
  · obtain ⟨a, leftCode, fresh₁, hLowerLeft⟩ :=
      (hLeft hLeftTyped hLeftPacks).operand (hLeftType ▸ hVoid) fresh
    obtain ⟨b, rightCode, fresh₂, hLowerRight⟩ :=
      (hRight hRightTyped hRightPacks).operand (hRightType ▸ hVoid) fresh₁
    obtain ⟨l, fresh', hFinish⟩ := finish_total scope _ _ _ fresh₂
    exact ⟨l, fresh', (expr_binary_run hOp).mpr
      ⟨a, leftCode, fresh₁, b, rightCode, fresh₂, hLowerLeft, hLowerRight, hFinish⟩⟩

/-- A call can be lowered wherever its value is not asked for, and elsewhere if it has one. -/
theorem lowersAlways_call (hSound : scope.Sound) {receiver : Expr} {method : String}
    {arguments : List Expr} {ty : Source.Ty}
    (hReceiver : receiver.wellTyped scope = true → receiver.packsFit scope = true →
      LowersAlways scope receiver)
    (hArguments : ∀ e ∈ arguments, e.wellTyped scope = true → e.packsFit scope = true →
      LowersAlways scope e)
    (hTyped : (Expr.call receiver method arguments ty).wellTyped scope = true)
    (hPacks : (Expr.call receiver method arguments ty).packsFit scope = true) :
    LowersAlways scope (.call receiver method arguments ty) := by
  intro use fresh hUse
  simp only [Expr.packsFit, Bool.and_eq_true, Source.packsFitAll_iff] at hPacks
  obtain ⟨⟨hReceiverPacks, hArgumentPacks⟩, hLimit⟩ := hPacks
  cases hLength : asksLength receiver method arguments with
  | true =>
      have hArray : receiver.ty.isArray = true := (Bool.and_eq_true_iff.mp hLength).2
      simp only [Expr.wellTyped, hLength, if_true, Bool.and_eq_true] at hTyped
      obtain ⟨o, code, fresh₁, hLower⟩ := (hReceiver hTyped.2.1 hReceiverPacks).operand
        (ne_void_of_isArray hArray) fresh
      obtain ⟨l, fresh', hFinish⟩ := finish_total scope _ _ _ fresh₁
      exact ⟨l, fresh', (expr_length_run hLength).mpr ⟨o, code, fresh₁, hLower, hFinish⟩⟩
  | false =>
      simp only [Expr.wellTyped, hLength, Bool.false_eq_true, if_false, ← staticTarget?_eq,
        Bool.and_eq_true, wellTypedAll_iff, List.all_eq_true, Bool.not_eq_true'] at hTyped
      obtain ⟨⟨⟨hTypedArguments, hValues⟩, _⟩, hCall⟩ := hTyped
      obtain ⟨kind, target, code, fresh₁, hTarget, hClass⟩ := callTarget_total hSound
        receiver (fun hStatic => by
          rw [hStatic, Bool.and_eq_true, Bool.and_eq_true] at hCall
          exact ⟨hCall.1.1, hCall.1.2, hReceiver hCall.1.1 hReceiverPacks⟩) fresh
      obtain ⟨os, argumentCode, fresh₂, hLower, hCount⟩ := LowersAlways.operands
        (fun e he => hArguments e he (hTypedArguments e he) (hArgumentPacks e he))
        (fun e he => ne_void_of_isVoid (hValues e he)) fresh₁
      have hFits : ∀ n, scope.fixedArity? target receiver.ty method = some n →
          (os.drop n).length < Source.arrayLimit := by
        intro n hArity
        rw [fixedArity?_eq method hClass] at hArity
        rw [hArity] at hLimit
        rw [List.length_drop, hCount]
        exact of_decide_eq_true hLimit
      obtain ⟨values, collectCode, fresh₃, hCollect⟩ := collect_total scope arguments hFits fresh₂
      obtain ⟨l, fresh', hFinish⟩ := finish_total scope
        (use = .assignRhs ∨ use = .discard) (.call kind target (some method) values (.ofSource ty))
        (code ++ argumentCode ++ collectCode) fresh₃
      refine ⟨l, fresh', (expr_call_run hLength).mpr ⟨kind, target, code, fresh₁, os, argumentCode,
        fresh₂, values, collectCode, fresh₃, hTarget, hLower, hCollect,
        (finishCall_run rfl).mpr ⟨fun hPlace => ?_, hFinish⟩⟩⟩
      rw [Instr.valueType, ← Bool.not_eq_true, isVoid_ofSource]
      exact hUse hPlace

/-- Every well-typed expression is lowered, by induction on the expression, if its arrays have room for
their values. -/
theorem lowersAlways (hSound : scope.Sound) {e : Expr} (hTyped : e.wellTyped scope = true)
    (hPacks : e.packsFit scope = true) : LowersAlways scope e := by
  induction e with
  | intLiteral value | boolLiteral value | self ty => exact fun _ fresh _ => ⟨_, fresh, rfl⟩
  | ident name ty =>
      intro use fresh _
      rcases wellTyped_ident hTyped with ⟨d, hLookup, _⟩ | ⟨d, hLookup, hField, _⟩
      · exact ⟨_, _, identifier_run.mpr (.inl ⟨d, hLookup, rfl, rfl⟩)⟩
      · rw [← visibleField?_eq hSound.known hLookup] at hField
        obtain ⟨l, fresh', hFinish⟩ := finish_total scope false _ _ fresh
        exact ⟨l, fresh', identifier_run.mpr (.inr (.inl ⟨d, hLookup, hField, hFinish⟩))⟩
  | index base place ty hBase hPlace => exact lowersAlways_index hSound hBase hPlace hTyped hPacks
  | paren inner hInner => exact hInner hTyped hPacks
  | not operand hOperand =>
      intro use fresh _
      simp only [Expr.wellTyped, Bool.and_eq_true, decide_eq_true_eq] at hTyped
      obtain ⟨o, code, fresh₁, hLower⟩ :=
        (hOperand hTyped.1 hPacks).operand (by rw [hTyped.2]; decide) fresh
      obtain ⟨l, fresh', hFinish⟩ := finish_total scope _ _ _ fresh₁
      exact ⟨l, fresh', expr_not_run.mpr ⟨o, code, fresh₁, hLower, hFinish⟩⟩
  | newArray size hSize =>
      intro use fresh _
      simp only [Expr.wellTyped, Bool.and_eq_true, decide_eq_true_eq] at hTyped
      obtain ⟨o, code, fresh₁, hLower⟩ :=
        (hSize hTyped.1 hPacks).operand (by rw [hTyped.2]; decide) fresh
      obtain ⟨l, fresh', hFinish⟩ := finish_total scope _ _ _ fresh₁
      exact ⟨l, fresh', expr_newArray_run.mpr ⟨o, code, fresh₁, hLower, hFinish⟩⟩
  | newObject className =>
      intro use fresh _
      exact ⟨_, _, expr_newObject_run.mpr ⟨_, newTemp_run scope fresh, rfl⟩⟩
  | arrayLiteral elements hElements =>
      intro use fresh _
      simp only [Expr.wellTyped, Bool.and_eq_true, wellTypedAll_iff, List.all_eq_true,
        decide_eq_true_eq] at hTyped
      simp only [Expr.packsFit, Bool.and_eq_true, Source.packsFitAll_iff, decide_eq_true_eq] at hPacks
      obtain ⟨values, code, fresh₁, hLower, hLength⟩ := LowersAlways.operands
        (fun e he => hElements e he (hTyped.1 e he) (hPacks.2 e he))
        (fun e he => by rw [hTyped.2 e he]; decide) fresh
      obtain ⟨fillCode, hFill⟩ := fillArray_total (hLength ▸ hPacks.1) _
      exact ⟨_, _, expr_arrayLiteral_run.mpr
        ⟨values, code, fresh₁, _, fillCode, hLower, newTemp_run scope fresh₁, hFill, rfl⟩⟩
  | binary op left right ty hLeft hRight => exact lowersAlways_binary hLeft hRight hTyped hPacks
  | call receiver method arguments ty hReceiver hArguments =>
      exact lowersAlways_call hSound hReceiver hArguments hTyped hPacks

section Statements

variable (hSound : scope.Sound)
include hSound

theorem operand_total {e : Expr} (hTyped : e.wellTyped scope = true)
    (hPacks : e.packsFit scope = true) (hVoid : e.ty ≠ .void) (fresh : Fresh) :
    ∃ o code fresh', (operand scope e).run fresh = .ok (o, code) fresh' :=
  (lowersAlways hSound hTyped hPacks).operand hVoid fresh

theorem condition_total {e : Expr} (hTyped : e.wellTyped scope = true)
    (hPacks : e.packsFit scope = true) (hBoolean : e.ty = .boolean) (fresh : Fresh) :
    ∃ c code fresh', (condition scope e).run fresh = .ok (c, code) fresh' :=
  (lowersAlways hSound hTyped hPacks).condition (by rw [hBoolean]; decide) fresh

theorem assignName_total {name : String} {ty : Source.Ty} {value : Expr}
    (hTarget : (Expr.ident name ty).wellTyped scope = true) (hTyped : value.wellTyped scope = true)
    (hPacks : value.packsFit scope = true) (hFits : value.ty.fits ty = true) (fresh : Fresh) :
    ∃ code fresh', (assignName scope name value).run fresh = .ok code fresh' := by
  rcases wellTyped_ident hTarget with ⟨d, hLookup, _⟩ | ⟨d, hLookup, hField, rfl, _⟩
  · obtain ⟨l, fresh', hLower⟩ :=
      lowersAlways hSound hTyped hPacks .assignRhs fresh (by simp)
    exact ⟨_, fresh', assignName_run.mpr (.inl ⟨d, l, hLookup, hLower, rfl⟩)⟩
  · have hVoid := ne_void_of_fits hFits (ne_void_of_isVoid (hSound.fields name d hField))
    rw [← visibleField?_eq hSound.known hLookup] at hField
    obtain ⟨o, code, fresh', hLower⟩ := operand_total hSound hTyped hPacks hVoid fresh
    exact ⟨_, fresh', assignName_run.mpr (.inr ⟨d, o, code, hLookup, hField, hLower, rfl⟩)⟩

theorem assignElement_total {base place value : Expr} {ty : Source.Ty}
    (hTarget : (Expr.index base place ty).wellTyped scope = true)
    (hTargetPacks : (Expr.index base place ty).packsFit scope = true)
    (hTyped : value.wellTyped scope = true) (hPacks : value.packsFit scope = true) (fresh : Fresh) :
    ∃ code fresh', (assignElement scope base place ty value).run fresh = .ok code fresh' := by
  simp only [Expr.wellTyped, Bool.and_eq_true, decide_eq_true_eq] at hTarget
  obtain ⟨⟨⟨⟨hBase, hPlace⟩, hArray⟩, hInt⟩, rfl⟩ := hTarget
  obtain ⟨hBasePacks, hPlacePacks⟩ := Bool.and_eq_true_iff.mp hTargetPacks
  obtain ⟨l, fresh₁, hLower⟩ := lowersAlways hSound hTyped hPacks .assignRhs fresh (by simp)
  obtain ⟨o, baseCode, fresh₂, hLowerBase⟩ :=
    operand_total hSound hBase hBasePacks (ne_void_of_isArray hArray) fresh₁
  obtain ⟨i, placeCode, fresh', hLowerPlace⟩ :=
    operand_total hSound hPlace hPlacePacks (by rw [hInt]; decide) fresh₂
  obtain ⟨array, hName⟩ := variable_of_isArray hSound hBase hArray hLowerBase
  exact ⟨_, fresh', assignElement_run.mpr ⟨l, fresh₁, o, baseCode, fresh₂, i, placeCode, array, hLower,
    hLowerBase, hLowerPlace, hName, rfl⟩⟩

theorem assign_total {target value : Expr} (hTyped : (Stmt.assign target value).wellTyped scope = true)
    (hPacks : (Stmt.assign target value).packsFit scope = true) (fresh : Fresh) :
    ∃ code fresh', (assign scope target value).run fresh = .ok code fresh' := by
  simp only [Stmt.wellTyped, Bool.and_eq_true] at hTyped
  obtain ⟨⟨⟨hIsTarget, hTarget⟩, hValue⟩, hFits⟩ := hTyped
  obtain ⟨hTargetPacks, hValuePacks⟩ := Bool.and_eq_true_iff.mp hPacks
  rw [← wellTyped_bare] at hTarget
  rw [← packsFit_bare] at hTargetPacks
  rw [← ty_bare target] at hFits
  rw [Expr.isTarget] at hIsTarget
  cases hBare : target.bare with
  | ident name ty =>
      rw [hBare] at hTarget hFits
      obtain ⟨code, fresh', hLower⟩ :=
        assignName_total hSound hTarget hValue hValuePacks hFits fresh
      exact ⟨code, fresh', assign_run.mpr (.inl ⟨name, ty, hBare, hLower⟩)⟩
  | index base place ty =>
      rw [hBare] at hTarget hTargetPacks
      obtain ⟨code, fresh', hLower⟩ :=
        assignElement_total hSound hTarget hTargetPacks hValue hValuePacks fresh
      exact ⟨code, fresh', assign_run.mpr (.inr ⟨base, place, ty, hBare, hLower⟩)⟩
  | _ =>
      rw [hBare] at hIsTarget
      cases hIsTarget

theorem ret_total {value : Option Expr} (hTyped : (Stmt.ret value).wellTyped scope = true)
    (hPacks : (Stmt.ret value).packsFit scope = true) (fresh : Fresh) :
    ∃ code fresh', (ret scope value).run fresh = .ok code fresh' := by
  cases value with
  | none => exact ⟨_, _, ret_none_run.mpr ⟨rfl, rfl⟩⟩
  | some e =>
      simp only [Stmt.wellTyped, Bool.and_eq_true, decide_eq_true_eq] at hTyped
      obtain ⟨o, code, fresh', hLower⟩ :=
        operand_total hSound hTyped.1.1 hPacks (ne_void_of_fits hTyped.2 hTyped.1.2) fresh
      exact ⟨_, fresh', ret_some_run.mpr ⟨o, code, hLower, rfl⟩⟩

omit hSound in
/-- From the parts to the whole of a list of statements. -/
theorem stmts_total_of {ss : List Stmt}
    (hParts : ∀ s ∈ ss, ∀ fresh, ∃ code fresh', (stmt scope s).run fresh = .ok code fresh')
    (fresh : Fresh) : ∃ code fresh', (stmts scope ss).run fresh = .ok code fresh' := by
  induction ss generalizing fresh with
  | nil => exact ⟨_, _, stmts_nil_run.mpr ⟨rfl, rfl⟩⟩
  | cons s rest ih =>
      obtain ⟨code, fresh₁, hHead⟩ := hParts s List.mem_cons_self fresh
      obtain ⟨others, fresh', hRest⟩ := ih (fun s hs => hParts s (List.mem_cons_of_mem _ hs)) fresh₁
      exact ⟨_, fresh', stmts_cons_run.mpr ⟨code, fresh₁, others, hHead, hRest, rfl⟩⟩

theorem stmt_total {s : Stmt} (hTyped : s.wellTyped scope = true) (hPacks : s.packsFit scope = true)
    (fresh : Fresh) : ∃ code fresh', (stmt scope s).run fresh = .ok code fresh' := by
  induction s generalizing fresh with
  | block statements hParts =>
      have hEachTyped := wellTypedStmts_iff.mp hTyped
      have hEachPacks := Source.packsFitStmts_iff.mp hPacks
      exact stmts_total_of (fun s hs => hParts s hs (hEachTyped s hs) (hEachPacks s hs)) fresh
  | cond test thenBranch elseBranch hThen hElse =>
      simp only [Stmt.wellTyped, Bool.and_eq_true, decide_eq_true_eq] at hTyped
      obtain ⟨⟨⟨hTest, hBoolean⟩, hThenTyped⟩, hElseTyped⟩ := hTyped
      simp only [Stmt.packsFit, Bool.and_eq_true] at hPacks
      obtain ⟨⟨hTestPacks, hThenPacks⟩, hElsePacks⟩ := hPacks
      obtain ⟨c, testCode, fresh₁, hLowerTest⟩ :=
        condition_total hSound hTest hTestPacks hBoolean fresh
      obtain ⟨elseCode, fresh₃, hLowerElse⟩ : ∃ code fresh', (optionalStmt scope elseBranch).run
          { fresh₁ with nextLabel := fresh₁.nextLabel + 1 } = .ok code fresh' := by
        cases elseBranch with
        | none => exact ⟨_, _, rfl⟩
        | some s => exact hElse s rfl hElseTyped hElsePacks _
      obtain ⟨thenCode, fresh', hLowerThen⟩ := hThen hThenTyped hThenPacks fresh₃
      exact ⟨_, fresh', stmt_cond_run.mpr ⟨c, testCode, fresh₁, _, _, elseCode, fresh₃, thenCode,
        hLowerTest, newIfLabels_run fresh₁, hLowerElse, hLowerThen, rfl⟩⟩
  | loop test body hBody =>
      simp only [Stmt.wellTyped, Bool.and_eq_true, decide_eq_true_eq] at hTyped
      obtain ⟨⟨hTest, hBoolean⟩, hBodyTyped⟩ := hTyped
      obtain ⟨hTestPacks, hBodyPacks⟩ := Bool.and_eq_true_iff.mp hPacks
      obtain ⟨entry, entryCode, fresh₁, hEntry⟩ :=
        condition_total hSound hTest hTestPacks hBoolean fresh
      obtain ⟨bodyCode, fresh₃, hLower⟩ := hBody hBodyTyped hBodyPacks _
      obtain ⟨again, againCode, fresh', hAgain⟩ :=
        condition_total hSound hTest hTestPacks hBoolean fresh₃
      exact ⟨_, fresh', stmt_loop_run.mpr ⟨entry, entryCode, fresh₁, _, _, bodyCode, fresh₃, again,
        againCode, hEntry, newWhileLabels_run fresh₁, hLower, hAgain, rfl⟩⟩
  | assign target value => exact assign_total hSound hTyped hPacks fresh
  | ret value => exact ret_total hSound hTyped hPacks fresh
  | eval e =>
      obtain ⟨l, fresh', hLower⟩ :=
        lowersAlways hSound (e := e) hTyped hPacks .discard fresh (by simp)
      exact ⟨_, fresh', stmt_eval_run.mpr ⟨l, hLower, rfl⟩⟩

theorem stmts_total {ss : List Stmt} (hTyped : Source.wellTypedStmts scope ss = true)
    (hPacks : Source.packsFitStmts scope ss = true) (fresh : Fresh) :
    ∃ code fresh', (stmts scope ss).run fresh = .ok code fresh' :=
  stmts_total_of (fun s hs => stmt_total hSound (wellTypedStmts_iff.mp hTyped s hs)
    (Source.packsFitStmts_iff.mp hPacks s hs)) fresh

end Statements

section Programs

variable {program : Program}

/-- A method of a well-typed program is lowered, whatever numbers it begins with. The search for a free
name ends from every number. -/
theorem method_total (hTyped : program.WellTyped) (hPacks : program.packsFit) {m : MethodDecl}
    (hm : m ∈ program.decl.methods) (fresh : Fresh) :
    ∃ lowered fresh', (method (.ofProgram program) m).run fresh = .ok lowered fresh' := by
  obtain ⟨code, fresh', hBody⟩ := stmts_total (sound_scope hTyped hm) (hTyped.methods m hm).body
    (hPacks m hm) fresh
  exact ⟨_, fresh', method_run.mpr ⟨_, code, method?_eq hTyped.distinct hm, hBody, rfl⟩⟩

theorem methods_total (hTyped : program.WellTyped) (hPacks : program.packsFit) {ms : List MethodDecl}
    (hms : ∀ m ∈ ms, m ∈ program.decl.methods) (fresh : Fresh) :
    ∃ lowered fresh', (methods (.ofProgram program) ms).run fresh = .ok lowered fresh' := by
  induction ms generalizing fresh with
  | nil => exact ⟨_, _, methods_nil_run.mpr ⟨rfl, rfl⟩⟩
  | cons m rest ih =>
      obtain ⟨hHead, hRest⟩ := List.forall_mem_cons.mp hms
      obtain ⟨first, fresh₁, hFirst⟩ := method_total hTyped hPacks hHead fresh
      obtain ⟨others, fresh', hOthers⟩ := ih hRest fresh₁
      exact ⟨_, fresh', methods_cons_run.mpr ⟨first, fresh₁, others, hFirst, hOthers, rfl⟩⟩

/-- A well-typed program is lowered, with or without a default constructor. No limit but that on the
length of arrays is needed. -/
theorem ofProgram_total (withConstructor : Bool) (hTyped : program.WellTyped)
    (hPacks : program.packsFit) : ∃ unit, ofProgram withConstructor program = .ok unit := by
  obtain ⟨lowered, fresh', hLowered⟩ := methods_total hTyped hPacks (fun _ hm => hm) .start
  exact ⟨_, ofProgram_ok.mpr ⟨lowered, fresh', hLowered, rfl⟩⟩

end Programs

end MiniJava.Lowering
