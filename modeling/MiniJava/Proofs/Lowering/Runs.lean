import MiniJava.Lowering.Unit

/-! What a successful lowering step did, one theorem for each form of phrase. Later proofs read
lowering through these theorems and do not unfold it. -/

namespace MiniJava

/-- A sequence of two steps succeeds exactly if the first one does and the second one does from where it
leaves off. -/
theorem run_bind_ok {ε σ α β : Type} {x : EStateM ε σ α} {k : α → EStateM ε σ β} {s s' : σ} {b : β} :
    (x >>= k).run s = .ok b s' ↔ ∃ a s₁, x.run s = .ok a s₁ ∧ (k a).run s₁ = .ok b s' := by
  rw [EStateM.run_bind]
  cases x.run s with
  | ok a s₁ =>
      constructor
      · exact fun h => ⟨a, s₁, rfl, h⟩
      · rintro ⟨_, _, ⟨⟩, h⟩
        exact h
  | error e s₁ => simp

theorem run_pure_ok {ε σ α : Type} {s s' : σ} {a b : α} :
    (pure a : EStateM ε σ α).run s = .ok b s' ↔ b = a ∧ s' = s := by
  simp [eq_comm]

theorem run_throw_ok {ε σ α : Type} {s s' : σ} {e : ε} {b : α} :
    ¬(throw e : EStateM ε σ α).run s = .ok b s' := by
  intro h
  cases h

end MiniJava

namespace MiniJava.Lowering

open Code (CallKind Condition Instr Label Operand)
open Source (Expr Stmt)

-- The theorems below are the only ones that unfold these.
attribute [local simp] expr stmt

variable {scope : Scope} {fresh fresh' : Fresh}

/-- A temporary has the first number from the next one on whose name is free, and the number behind it is
the next. -/
theorem newTemp_run (scope : Scope) (fresh : Fresh) :
    scope.newTemp.run fresh = .ok (tempName (firstFree scope.takenNames fresh.nextTemp))
      { fresh with nextTemp := firstFree scope.takenNames fresh.nextTemp + 1 } := rfl

theorem newIfLabels_run (fresh : Fresh) :
    newIfLabels.run fresh = .ok (⟨.ifBody, fresh.nextLabel⟩, ⟨.endIf, fresh.nextLabel⟩)
      { fresh with nextLabel := fresh.nextLabel + 1 } := rfl

theorem newWhileLabels_run (fresh : Fresh) :
    newWhileLabels.run fresh = .ok (⟨.whileBody, fresh.nextLabel⟩, ⟨.endWhile, fresh.nextLabel⟩)
      { fresh with nextLabel := fresh.nextLabel + 1 } := rfl

/-- The condition that a branch can test in place of a value. An operand and a comparison give one, no
other instruction does. -/
def condition? : Instr → Option Condition
  | .operand o => some (.single o)
  | .binary op left right _ => if op.isComparison then some (.compare op left right) else none
  | _ => none

/-- An operand is the value of the expression for that use; that the value might be something else is an
error that does not occur. -/
theorem operand_run {e : Expr} {o : Operand} {code : List Instr} :
    (operand scope e).run fresh = .ok (o, code) fresh' ↔
      (expr scope e .value).run fresh = .ok ⟨.operand o, code⟩ fresh' := by
  simp only [operand, operandOf, run_bind_ok]
  constructor
  · rintro ⟨l, fresh₁, hLower, hRun⟩
    split at hRun
    · obtain ⟨⟨⟩, rfl⟩ := run_pure_ok.mp hRun
      exact hLower
    · exact (run_throw_ok hRun).elim
  · intro hLower
    exact ⟨_, _, hLower, rfl⟩

theorem condition_run {e : Expr} {c : Condition} {code : List Instr} :
    (condition scope e).run fresh = .ok (c, code) fresh' ↔
      ∃ value, (expr scope e .condition).run fresh = .ok ⟨value, code⟩ fresh' ∧
        condition? value = some c := by
  simp only [condition, conditionOf, run_bind_ok]
  constructor
  · rintro ⟨l, fresh₁, hLower, hRun⟩
    split at hRun
    · obtain ⟨⟨⟩, rfl⟩ := run_pure_ok.mp hRun
      exact ⟨_, hLower, rfl⟩
    · split at hRun
      · rename_i hComparison
        obtain ⟨⟨⟩, rfl⟩ := run_pure_ok.mp hRun
        exact ⟨_, hLower, by simp [condition?, hComparison]⟩
      · exact (run_throw_ok hRun).elim
    · exact (run_throw_ok hRun).elim
  · rintro ⟨value, hLower, hCondition⟩
    refine ⟨_, _, hLower, ?_⟩
    cases value <;> simp_all [condition?]

theorem operands_nil_run {values : List Operand} {code : List Instr} :
    (operands scope []).run fresh = .ok (values, code) fresh' ↔
      values = [] ∧ code = [] ∧ fresh' = fresh := by
  rw [operands, run_pure_ok, Prod.mk.injEq, and_assoc]

theorem operands_cons_run {e : Expr} {rest : List Expr} {values : List Operand}
    {code : List Instr} :
    (operands scope (e :: rest)).run fresh = .ok (values, code) fresh' ↔
      ∃ o headCode fresh₁ os restCode,
        (operand scope e).run fresh = .ok (o, headCode) fresh₁ ∧
        (operands scope rest).run fresh₁ = .ok (os, restCode) fresh' ∧
        values = o :: os ∧ code = headCode ++ restCode := by
  simp only [operands, run_bind_ok, run_pure_ok, Prod.exists, Prod.mk.injEq]
  constructor
  · rintro ⟨o, headCode, fresh₁, hHead, os, restCode, fresh₂, hRest, ⟨rfl, rfl⟩, rfl⟩
    exact ⟨o, headCode, fresh₁, os, restCode, hHead, hRest, rfl, rfl⟩
  · rintro ⟨o, headCode, fresh₁, os, restCode, hHead, hRest, rfl, rfl⟩
    exact ⟨o, headCode, fresh₁, hHead, os, restCode, fresh', hRest, ⟨rfl, rfl⟩, rfl⟩

/-- A value that may not stay and is no plain operand goes to a new temporary. In the other case no
number is taken and the code stays as it is. -/
theorem finish_run {mayStay : Bool} {value : Instr} {code : List Instr} {l : Lowered} :
    (finish scope mayStay value code).run fresh = .ok l fresh' ↔
      ((mayStay || isPlain value) = true ∧ l = ⟨value, code⟩ ∧ fresh' = fresh) ∨
      ((mayStay || isPlain value) = false ∧ ∃ name, scope.newTemp.run fresh = .ok name fresh' ∧
        l = ⟨.operand (.variable name value.valueType),
          code ++ [.assign (.variable name value.valueType) value.valueType value]⟩) := by
  unfold finish
  split
  · rename_i hStay
    simp only [hStay, run_pure_ok, true_and, Bool.true_eq_false, false_and, or_false]
  · rename_i hStay
    rw [Bool.not_eq_true] at hStay
    simp only [hStay, run_bind_ok, run_pure_ok, Bool.false_eq_true, false_and, false_or, true_and]
    constructor
    · rintro ⟨name, _, hTemp, rfl, rfl⟩
      exact ⟨name, hTemp, rfl⟩
    · rintro ⟨name, hTemp, rfl⟩
      exact ⟨name, _, hTemp, rfl, rfl⟩

/-- A name is looked up in the method first, then among the fields that it sees, then among the
classes. -/
theorem identifier_run {name : String} {l : Lowered} :
    (identifier scope name).run fresh = .ok l fresh' ↔
      (∃ declared, scope.method.lookup? name = some declared ∧
        l = .ofOperand (.variable name (.ofSource declared.ty)) ∧ fresh' = fresh) ∨
      (∃ field, scope.method.lookup? name = none ∧
        scope.symbols.visibleField? scope.method.name name = some field ∧
        (finish scope false (.getField scope.self name (.ofSource field.ty)) []).run fresh =
          .ok l fresh') ∨
      (scope.method.lookup? name = none ∧
        scope.symbols.visibleField? scope.method.name name = none ∧
        scope.symbols.isClassReference name = true ∧ l = .ofOperand (.classRef name) ∧
        fresh' = fresh) := by
  unfold identifier
  cases scope.method.lookup? name with
  | some declared =>
      dsimp only
      rw [run_pure_ok]
      simp
  | none =>
      cases scope.symbols.visibleField? scope.method.name name with
      | some field => simp
      | none =>
          by_cases hClass : scope.symbols.isClassReference name
          · simp only [hClass, if_true, run_pure_ok]
            simp
          · simp [hClass, run_throw_ok]

theorem elementOf_run {base place o : Operand} {ty : Code.Ty} :
    (elementOf base place ty).run fresh = .ok o fresh' ↔
      ∃ array, base.variableName? = some array ∧ o = .element array place ty ∧
        fresh' = fresh := by
  unfold elementOf
  cases base.variableName? with
  | none => simp [run_throw_ok]
  | some array =>
      dsimp only
      rw [run_pure_ok]
      simp

/-- The code that stores values into the items of an array, from item `first` on. It is what filling a
fresh array does after its allocation. -/
def storeItems (array : String) (first : Nat) (values : List Operand) : List Instr :=
  values.mapIdx fun place value =>
    .assign (.element array (.int (.ofNat (first + place))) .int32) .int32 (.operand value)

/-- An array is made of the length of the values, which must be one that arrays can have, and filled from
its first item on. -/
theorem fillArray_run {array : String} {values : List Operand} {code : List Instr} :
    (fillArray array values).run fresh = .ok code fresh' ↔
      values.length < Nat.pow 2 31 ∧
        code = .assign (.variable array .intArray) .intArray
          (newIntArray (.int (.ofNat values.length))) :: storeItems array 0 values ∧
        fresh' = fresh := by
  unfold fillArray
  split
  · rename_i hLength
    rw [run_pure_ok]
    have hStores : storeItems array 0 values = values.mapIdx fun place value =>
        .assign (.element array (.int (.ofNat place)) .int32) .int32 (.operand value) := by
      simp [storeItems]
    rw [hStores]
    exact ⟨fun h => ⟨hLength, h⟩, fun h => h.2⟩
  · rename_i hLength
    simp only [run_throw_ok, hLength, false_and]

section Expressions

variable {use : Use} {l : Lowered}

/-- An item stays where it is if it is assigned, and goes to a temporary otherwise. The array must be in
a variable in both cases. -/
theorem expr_index_run {base place : Expr} {ty : Source.Ty} :
    (expr scope (.index base place ty) use).run fresh = .ok l fresh' ↔
      ∃ o baseCode fresh₁ i placeCode fresh₂ array,
        (operand scope base).run fresh = .ok (o, baseCode) fresh₁ ∧
        (operand scope place).run fresh₁ = .ok (i, placeCode) fresh₂ ∧
        o.variableName? = some array ∧
        (finish scope (use = .assignRhs) (.operand (.element array i (.ofSource ty)))
          (baseCode ++ placeCode)).run fresh₂ = .ok l fresh' := by
  simp only [expr, operand, run_bind_ok, Prod.exists, elementOf_run]
  constructor
  · rintro ⟨o, baseCode, fresh₁, hBase, i, placeCode, _, hPlace, _, fresh₂,
      ⟨array, hArray, rfl, rfl⟩, hFinish⟩
    exact ⟨o, baseCode, fresh₁, i, placeCode, fresh₂, array, hBase, hPlace, hArray, hFinish⟩
  · rintro ⟨o, baseCode, fresh₁, i, placeCode, fresh₂, array, hBase, hPlace, hArray, hFinish⟩
    exact ⟨o, baseCode, fresh₁, hBase, i, placeCode, fresh₂, hPlace, _, _,
      ⟨array, hArray, rfl, rfl⟩, hFinish⟩

theorem expr_newArray_run {size : Expr} :
    (expr scope (.newArray size) use).run fresh = .ok l fresh' ↔
      ∃ o code fresh₁, (operand scope size).run fresh = .ok (o, code) fresh₁ ∧
        (finish scope (use = .assignRhs) (newIntArray o) code).run fresh₁ = .ok l fresh' := by
  simp only [expr, operand, run_bind_ok, Prod.exists]

theorem expr_not_run {e : Expr} :
    (expr scope (.not e) use).run fresh = .ok l fresh' ↔
      ∃ o code fresh₁, (operand scope e).run fresh = .ok (o, code) fresh₁ ∧
        (finish scope (use = .assignRhs) (.not o .boolean) code).run fresh₁ = .ok l fresh' := by
  simp only [expr, operand, run_bind_ok, Prod.exists]

theorem expr_newObject_run {className : String} :
    (expr scope (.newObject className) use).run fresh = .ok l fresh' ↔
      ∃ object, scope.newTemp.run fresh = .ok object fresh' ∧
        l = ⟨.operand (.variable object (.object className)), newObjectCode object className⟩ := by
  simp only [expr, run_bind_ok, run_pure_ok]
  constructor
  · rintro ⟨object, _, hTemp, rfl, rfl⟩
    exact ⟨object, hTemp, rfl⟩
  · rintro ⟨object, hTemp, rfl⟩
    exact ⟨object, _, hTemp, rfl, rfl⟩

theorem expr_arrayLiteral_run {elements : List Expr} :
    (expr scope (.arrayLiteral elements) use).run fresh = .ok l fresh' ↔
      ∃ values code fresh₁ array fillCode,
        (operands scope elements).run fresh = .ok (values, code) fresh₁ ∧
        scope.newTemp.run fresh₁ = .ok array fresh' ∧
        (fillArray array values).run fresh' = .ok fillCode fresh' ∧
        l = ⟨.operand (.variable array .intArray), code ++ fillCode⟩ := by
  simp only [expr, run_bind_ok, run_pure_ok, Prod.exists]
  constructor
  · rintro ⟨values, code, fresh₁, hValues, array, fresh₂, hTemp, fillCode, fresh₃, hFill, rfl, rfl⟩
    obtain ⟨_, _, rfl⟩ := fillArray_run.mp hFill
    exact ⟨values, code, fresh₁, array, fillCode, hValues, hTemp, hFill, rfl⟩
  · rintro ⟨values, code, fresh₁, array, fillCode, hValues, hTemp, hFill, rfl⟩
    exact ⟨values, code, fresh₁, hValues, array, _, hTemp, fillCode, _, hFill, rfl, rfl⟩

/-- The left operand becomes a condition. Labels and the result are taken before the right operand is
lowered. -/
theorem expr_and_run {left right : Expr} {ty : Source.Ty} :
    (expr scope (.binary .and left right ty) use).run fresh = .ok l fresh' ↔
      ∃ test leftCode fresh₁ labels fresh₂ result fresh₃ o rightCode,
        (condition scope left).run fresh = .ok (test, leftCode) fresh₁ ∧
        newIfLabels.run fresh₁ = .ok labels fresh₂ ∧
        scope.newTemp.run fresh₂ = .ok result fresh₃ ∧
        (operand scope right).run fresh₃ = .ok (o, rightCode) fresh' ∧
        l = ⟨.operand (.variable result .boolean),
          leftCode ++ shortCircuit labels (.variable result .boolean) test (o, rightCode)⟩ := by
  simp only [expr, condition, operand, run_bind_ok, run_pure_ok, Prod.exists]
  constructor
  · rintro ⟨test, leftCode, fresh₁, hLeft, bodyLabel, endLabel, fresh₂, hLabels, result, fresh₃,
      hTemp, o, rightCode, _, hRight, rfl, rfl⟩
    exact ⟨test, leftCode, fresh₁, bodyLabel, endLabel, fresh₂, result, fresh₃, o, rightCode, hLeft,
      hLabels, hTemp, hRight, rfl⟩
  · rintro ⟨test, leftCode, fresh₁, bodyLabel, endLabel, fresh₂, result, fresh₃, o, rightCode,
      hLeft, hLabels, hTemp, hRight, rfl⟩
    exact ⟨test, leftCode, fresh₁, hLeft, bodyLabel, endLabel, fresh₂, hLabels, result, fresh₃,
      hTemp, o, rightCode, _, hRight, rfl, rfl⟩

/-- Other operators lower both operands, from left to right. A comparison may stay in a condition. -/
theorem expr_binary_run {op : Source.BinaryOp} {left right : Expr} {ty : Source.Ty}
    (hOp : op ≠ .and) :
    (expr scope (.binary op left right ty) use).run fresh = .ok l fresh' ↔
      ∃ a leftCode fresh₁ b rightCode fresh₂,
        (operand scope left).run fresh = .ok (a, leftCode) fresh₁ ∧
        (operand scope right).run fresh₁ = .ok (b, rightCode) fresh₂ ∧
        (finish scope (operationMayStay (operation op) use)
          (.binary (operation op) a b (.ofSource ty)) (leftCode ++ rightCode)).run fresh₂ =
            .ok l fresh' := by
  rw [expr]
  · simp only [operand, run_bind_ok, Prod.exists]
    constructor
    · rintro ⟨a, leftCode, fresh₁, hLeft, b, rightCode, fresh₂, hRight, hFinish⟩
      exact ⟨a, leftCode, fresh₁, b, rightCode, fresh₂, hLeft, hRight, hFinish⟩
    · rintro ⟨a, leftCode, fresh₁, b, rightCode, fresh₂, hLeft, hRight, hFinish⟩
      exact ⟨a, leftCode, fresh₁, hLeft, b, rightCode, fresh₂, hRight, hFinish⟩
  · exact hOp

/-- The kind, the target and the receiver code of a call that does not ask for a length. A class takes no
code and no numbers. -/
theorem callTarget_run {receiver : Expr} {kind : CallKind} {target : Operand}
    {code : List Instr} :
    (callTarget scope receiver (operand scope receiver)).run fresh = .ok (kind, target, code) fresh' ↔
      (∃ className, scope.staticTarget? receiver = some className ∧ kind = .invokeStatic ∧
        target = .classRef className ∧ code = [] ∧ fresh' = fresh) ∨
      (scope.staticTarget? receiver = none ∧ kind = .invokeVirtual ∧
        (operand scope receiver).run fresh = .ok (target, code) fresh') := by
  unfold callTarget
  cases scope.staticTarget? receiver with
  | some className =>
      dsimp only
      rw [run_pure_ok]
      simp [and_assoc]
  | none =>
      simp only [run_bind_ok, run_pure_ok, Prod.exists]
      constructor
      · rintro ⟨_, _, _, hReceiver, ⟨⟩, rfl⟩
        exact .inr ⟨trivial, rfl, hReceiver⟩
      · rintro (⟨_, ⟨⟩, _⟩ | ⟨_, rfl, hReceiver⟩)
        exact ⟨target, code, fresh', hReceiver, rfl, rfl⟩

/-- Trailing arguments are collected, or the operands are passed on as they are. The temporary for the
array is taken last. -/
theorem collect_run {arity : Option Nat} {arguments : List Expr} {os values : List Operand}
    {code : List Instr} :
    (collect scope arity arguments os).run fresh = .ok (values, code) fresh' ↔
      (arity.all (fun n => isOneArray (arguments.drop n)) = true ∧ values = os ∧ code = [] ∧
        fresh' = fresh) ∨
      (∃ n array, arity = some n ∧ isOneArray (arguments.drop n) = false ∧
        scope.newTemp.run fresh = .ok array fresh' ∧
        (fillArray array (os.drop n)).run fresh' = .ok code fresh' ∧
        values = os.take n ++ [.variable array .intArray]) := by
  unfold collect
  cases arity with
  | none =>
      dsimp only
      rw [run_pure_ok]
      simp [and_assoc]
  | some n =>
      by_cases hArray : isOneArray (arguments.drop n)
      · simp only [hArray, if_true, run_pure_ok, Prod.mk.injEq, Option.all_some, true_and, and_assoc]
        simp [hArray]
      · rw [Bool.not_eq_true] at hArray
        simp only [hArray, run_bind_ok, run_pure_ok, Prod.mk.injEq, Option.all_some,
          Bool.false_eq_true, if_false, false_and, false_or]
        constructor
        · rintro ⟨array, _, hTemp, _, _, hFill, ⟨rfl, rfl⟩, rfl⟩
          obtain ⟨_, _, rfl⟩ := fillArray_run.mp hFill
          exact ⟨n, array, rfl, hArray, hTemp, hFill, rfl⟩
        · rintro ⟨_, array, ⟨⟩, _, hTemp, hFill, rfl⟩
          exact ⟨array, _, hTemp, _, _, hFill, ⟨rfl, rfl⟩, rfl⟩

/-- A call stays where any instruction may stand and where its value is dropped; elsewhere it is not
void and goes to a temporary. -/
theorem finishCall_run {method : String} {call : Instr} {code : List Instr}
    (hCall : isPlain call = false) :
    (finishCall scope use method call code).run fresh = .ok l fresh' ↔
      (use = .value ∨ use = .condition → call.valueType.isVoid = false) ∧
        (finish scope (use = .assignRhs ∨ use = .discard) call code).run fresh = .ok l fresh' := by
  unfold finishCall
  cases use with
  | assignRhs | discard => simp [finish]
  | value | condition =>
      cases hVoid : call.valueType.isVoid with
      | true => simp [run_throw_ok]
      | false => simp [finish, hCall]

theorem expr_length_run {receiver : Expr} {method : String} {arguments : List Expr}
    {ty : Source.Ty} (hLength : asksLength receiver method arguments = true) :
    (expr scope (.call receiver method arguments ty) use).run fresh = .ok l fresh' ↔
      ∃ o code fresh₁, (operand scope receiver).run fresh = .ok (o, code) fresh₁ ∧
        (finish scope (use = .assignRhs) (.call .arrayLength o none [] .int32) code).run fresh₁ =
          .ok l fresh' := by
  simp only [expr, operand, hLength, if_true, run_bind_ok, Prod.exists]

/-- A call lowers what it goes to, then all its arguments, and then collects those that are to be
collected. -/
theorem expr_call_run {receiver : Expr} {method : String} {arguments : List Expr}
    {ty : Source.Ty} (hLength : asksLength receiver method arguments = false) :
    (expr scope (.call receiver method arguments ty) use).run fresh = .ok l fresh' ↔
      ∃ kind target code fresh₁ os argumentCode fresh₂ values collectCode fresh₃,
        (callTarget scope receiver (operand scope receiver)).run fresh =
          .ok (kind, target, code) fresh₁ ∧
        (operands scope arguments).run fresh₁ = .ok (os, argumentCode) fresh₂ ∧
        (collect scope (scope.fixedArity? target receiver.ty method) arguments os).run fresh₂ =
          .ok (values, collectCode) fresh₃ ∧
        (finishCall scope use method (.call kind target (some method) values (.ofSource ty))
          (code ++ argumentCode ++ collectCode)).run fresh₃ = .ok l fresh' := by
  simp only [expr, operand, hLength, Bool.false_eq_true, if_false, run_bind_ok, Prod.exists]
  constructor
  · rintro ⟨kind, target, code, fresh₁, hTarget, os, argumentCode, fresh₂, hArguments, values,
      collectCode, fresh₃, hCollect, hFinish⟩
    exact ⟨kind, target, code, fresh₁, os, argumentCode, fresh₂, values, collectCode, fresh₃,
      hTarget, hArguments, hCollect, hFinish⟩
  · rintro ⟨kind, target, code, fresh₁, os, argumentCode, fresh₂, values, collectCode, fresh₃,
      hTarget, hArguments, hCollect, hFinish⟩
    exact ⟨kind, target, code, fresh₁, hTarget, os, argumentCode, fresh₂, hArguments, values,
      collectCode, fresh₃, hCollect, hFinish⟩

end Expressions

section Statements

variable {code : List Instr}

/-- An assignment to a variable takes any right-hand side, one to a field takes an operand. No other name
can be assigned to. -/
theorem assignName_run {name : String} {value : Expr} :
    (assignName scope name value).run fresh = .ok code fresh' ↔
      (∃ declared l, scope.method.lookup? name = some declared ∧
        (expr scope value .assignRhs).run fresh = .ok l fresh' ∧
        code = l.code ++ [.assign (.variable name (.ofSource declared.ty))
          (.ofSource declared.ty) l.value]) ∨
      (∃ field o valueCode, scope.method.lookup? name = none ∧
        scope.symbols.visibleField? scope.method.name name = some field ∧
        (operand scope value).run fresh = .ok (o, valueCode) fresh' ∧
        code = valueCode ++ [.putField scope.self name (.ofSource field.ty) o]) := by
  unfold assignName
  cases scope.method.lookup? name with
  | some declared =>
      simp only [run_bind_ok, run_pure_ok, reduceCtorEq, false_and, exists_false, or_false,
        Option.some.injEq]
      constructor
      · rintro ⟨l, _, hValue, rfl, rfl⟩
        exact ⟨declared, l, rfl, hValue, rfl⟩
      · rintro ⟨_, l, rfl, hValue, rfl⟩
        exact ⟨l, _, hValue, rfl, rfl⟩
  | none =>
      cases scope.symbols.visibleField? scope.method.name name with
      | none => simp [run_throw_ok]
      | some field =>
          simp only [run_bind_ok, run_pure_ok, Prod.exists, reduceCtorEq, false_and, exists_false,
            false_or, Option.some.injEq]
          constructor
          · rintro ⟨o, valueCode, _, hValue, rfl, rfl⟩
            exact ⟨field, o, valueCode, trivial, rfl, hValue, rfl⟩
          · rintro ⟨_, o, valueCode, _, rfl, hValue, rfl⟩
            exact ⟨o, valueCode, _, hValue, rfl, rfl⟩

theorem assignElement_run {base place value : Expr} {ty : Source.Ty} :
    (assignElement scope base place ty value).run fresh = .ok code fresh' ↔
      ∃ l fresh₁ o baseCode fresh₂ i placeCode array,
        (expr scope value .assignRhs).run fresh = .ok l fresh₁ ∧
        (operand scope base).run fresh₁ = .ok (o, baseCode) fresh₂ ∧
        (operand scope place).run fresh₂ = .ok (i, placeCode) fresh' ∧
        o.variableName? = some array ∧
        code = l.code ++ baseCode ++ placeCode ++
          [.assign (.element array i (.ofSource ty)) (.ofSource ty) l.value] := by
  simp only [assignElement, run_bind_ok, Prod.exists]
  constructor
  · rintro ⟨l, fresh₁, hValue, o, baseCode, fresh₂, hBase, i, placeCode, fresh₃, hPlace, hRun⟩
    split at hRun
    · rename_i array hArray
      obtain ⟨rfl, rfl⟩ := run_pure_ok.mp hRun
      exact ⟨l, fresh₁, o, baseCode, fresh₂, i, placeCode, array, hValue, hBase, hPlace, hArray, rfl⟩
    · exact (run_throw_ok hRun).elim
  · rintro ⟨l, fresh₁, o, baseCode, fresh₂, i, placeCode, array, hValue, hBase, hPlace, hArray, rfl⟩
    exact ⟨l, fresh₁, hValue, o, baseCode, fresh₂, hBase, i, placeCode, _, hPlace, by
      rw [hArray]; rfl⟩

/-- An assignment has a name or an item of an array as its target. Whatever parentheses stand around it
are passed over. -/
theorem assign_run {target value : Expr} :
    (assign scope target value).run fresh = .ok code fresh' ↔
      (∃ name ty, target.bare = .ident name ty ∧
        (assignName scope name value).run fresh = .ok code fresh') ∨
      (∃ base place ty, target.bare = .index base place ty ∧
        (assignElement scope base place ty value).run fresh = .ok code fresh') := by
  unfold assign
  cases target.bare with
  | index base place ty =>
      constructor
      · exact fun h => .inr ⟨base, place, ty, rfl, h⟩
      · rintro (⟨_, _, ⟨⟩, _⟩ | ⟨_, _, _, ⟨⟩, h⟩)
        exact h
  | _ => simp [run_throw_ok]

theorem ret_none_run :
    (ret scope none).run fresh = .ok code fresh' ↔
      code = [.ret none (.ofSource scope.method.returnType)] ∧ fresh' = fresh := by
  simp only [ret, run_pure_ok]

theorem ret_some_run {e : Expr} :
    (ret scope (some e)).run fresh = .ok code fresh' ↔
      ∃ o valueCode, (operand scope e).run fresh = .ok (o, valueCode) fresh' ∧
        code = valueCode ++ [.ret (some o) (.ofSource scope.method.returnType)] := by
  simp only [ret, run_bind_ok, run_pure_ok, Prod.exists]
  constructor
  · rintro ⟨o, valueCode, _, hValue, rfl, rfl⟩
    exact ⟨o, valueCode, hValue, rfl⟩
  · rintro ⟨o, valueCode, hValue, rfl⟩
    exact ⟨o, valueCode, _, hValue, rfl, rfl⟩

theorem stmt_eval_run {e : Expr} :
    (stmt scope (.eval e)).run fresh = .ok code fresh' ↔
      ∃ l, (expr scope e .discard).run fresh = .ok l fresh' ∧ code = discarded l := by
  simp only [stmt, run_bind_ok, run_pure_ok]
  constructor
  · rintro ⟨l, _, hLower, rfl, rfl⟩
    exact ⟨l, hLower, rfl⟩
  · rintro ⟨l, hLower, rfl⟩
    exact ⟨l, _, hLower, rfl, rfl⟩

/-- The test comes first, then the labels. The branch for false is lowered before the one for true. -/
theorem stmt_cond_run {test : Expr} {thenBranch : Stmt} {elseBranch : Option Stmt} :
    (stmt scope (.cond test thenBranch elseBranch)).run fresh = .ok code fresh' ↔
      ∃ c testCode fresh₁ labels fresh₂ elseCode fresh₃ thenCode,
        (condition scope test).run fresh = .ok (c, testCode) fresh₁ ∧
        newIfLabels.run fresh₁ = .ok labels fresh₂ ∧
        (optionalStmt scope elseBranch).run fresh₂ = .ok elseCode fresh₃ ∧
        (stmt scope thenBranch).run fresh₃ = .ok thenCode fresh' ∧
        code = testCode ++ conditional labels c thenCode elseCode := by
  simp only [stmt, run_bind_ok, run_pure_ok, Prod.exists]
  constructor
  · rintro ⟨c, testCode, fresh₁, hTest, bodyLabel, endLabel, fresh₂, hLabels, elseCode, fresh₃, hElse,
      thenCode, _, hThen, rfl, rfl⟩
    exact ⟨c, testCode, fresh₁, bodyLabel, endLabel, fresh₂, elseCode, fresh₃, thenCode, hTest,
      hLabels, hElse, hThen, rfl⟩
  · rintro ⟨c, testCode, fresh₁, bodyLabel, endLabel, fresh₂, elseCode, fresh₃, thenCode, hTest,
      hLabels, hElse, hThen, rfl⟩
    exact ⟨c, testCode, fresh₁, hTest, bodyLabel, endLabel, fresh₂, hLabels, elseCode, fresh₃, hElse,
      thenCode, _, hThen, rfl, rfl⟩

theorem stmt_loop_run {test : Expr} {body : Stmt} :
    (stmt scope (.loop test body)).run fresh = .ok code fresh' ↔
      ∃ entry entryCode fresh₁ labels fresh₂ bodyCode fresh₃ again againCode,
        (condition scope test).run fresh = .ok (entry, entryCode) fresh₁ ∧
        newWhileLabels.run fresh₁ = .ok labels fresh₂ ∧
        (stmt scope body).run fresh₂ = .ok bodyCode fresh₃ ∧
        (condition scope test).run fresh₃ = .ok (again, againCode) fresh' ∧
        code = entryCode ++ whileLoop labels entry bodyCode (again, againCode) := by
  simp only [stmt, run_bind_ok, run_pure_ok, Prod.exists]
  constructor
  · rintro ⟨entry, entryCode, fresh₁, hEntry, bodyLabel, endLabel, fresh₂, hLabels, bodyCode, fresh₃,
      hBody, again, againCode, _, hAgain, rfl, rfl⟩
    exact ⟨entry, entryCode, fresh₁, bodyLabel, endLabel, fresh₂, bodyCode, fresh₃, again, againCode,
      hEntry, hLabels, hBody, hAgain, rfl⟩
  · rintro ⟨entry, entryCode, fresh₁, bodyLabel, endLabel, fresh₂, bodyCode, fresh₃, again,
      againCode, hEntry, hLabels, hBody, hAgain, rfl⟩
    exact ⟨entry, entryCode, fresh₁, hEntry, bodyLabel, endLabel, fresh₂, hLabels, bodyCode, fresh₃,
      hBody, again, againCode, _, hAgain, rfl, rfl⟩

theorem stmts_nil_run :
    (stmts scope []).run fresh = .ok code fresh' ↔ code = [] ∧ fresh' = fresh := by
  rw [stmts, run_pure_ok]

theorem stmts_cons_run {s : Stmt} {rest : List Stmt} :
    (stmts scope (s :: rest)).run fresh = .ok code fresh' ↔
      ∃ headCode fresh₁ restCode, (stmt scope s).run fresh = .ok headCode fresh₁ ∧
        (stmts scope rest).run fresh₁ = .ok restCode fresh' ∧ code = headCode ++ restCode := by
  simp only [stmts, run_bind_ok, run_pure_ok]
  constructor
  · rintro ⟨headCode, fresh₁, hHead, restCode, _, hRest, rfl, rfl⟩
    exact ⟨headCode, fresh₁, restCode, hHead, hRest, rfl⟩
  · rintro ⟨headCode, fresh₁, restCode, hHead, hRest, rfl⟩
    exact ⟨headCode, fresh₁, hHead, restCode, _, hRest, rfl, rfl⟩

/-- The code of a method is that of its statements, in the scope of the first method of its name. -/
theorem method_run {symbols : Source.SymbolTable} {m : Source.MethodDecl} {lowered : Code.Method} :
    (method symbols m).run fresh = .ok lowered fresh' ↔
      ∃ signature body, symbols.method? m.name = some signature ∧
        (stmts ⟨symbols, signature⟩ m.body).run fresh = .ok body fresh' ∧
        lowered = closed {
          name := m.name
          isPublic := m.isPublic
          isStatic := m.isStatic
          isVarargs := signature.isVarargs
          parameters := m.parameters.map variableOf
          returnType := .ofSource m.returnType
          body } := by
  unfold method
  cases symbols.method? m.name with
  | none => simp [run_throw_ok]
  | some signature =>
      simp only [run_bind_ok, run_pure_ok, Option.some.injEq]
      constructor
      · rintro ⟨body, _, hBody, rfl, rfl⟩
        exact ⟨signature, body, rfl, hBody, rfl⟩
      · rintro ⟨_, body, rfl, hBody, rfl⟩
        exact ⟨body, _, hBody, rfl, rfl⟩

theorem methods_nil_run {symbols : Source.SymbolTable} {lowered : List Code.Method} :
    (methods symbols []).run fresh = .ok lowered fresh' ↔ lowered = [] ∧ fresh' = fresh := by
  rw [methods, run_pure_ok]

/-- Methods are lowered in their order, each with the numbers that those before it have left. -/
theorem methods_cons_run {symbols : Source.SymbolTable} {m : Source.MethodDecl}
    {rest : List Source.MethodDecl} {lowered : List Code.Method} :
    (methods symbols (m :: rest)).run fresh = .ok lowered fresh' ↔
      ∃ first fresh₁ others, (method symbols m).run fresh = .ok first fresh₁ ∧
        (methods symbols rest).run fresh₁ = .ok others fresh' ∧ lowered = first :: others := by
  simp only [methods, run_bind_ok, run_pure_ok]
  constructor
  · rintro ⟨first, fresh₁, hFirst, others, _, hRest, rfl, rfl⟩
    exact ⟨first, fresh₁, others, hFirst, hRest, rfl⟩
  · rintro ⟨first, fresh₁, others, hFirst, hRest, rfl⟩
    exact ⟨first, fresh₁, hFirst, others, _, hRest, rfl, rfl⟩

/-- A program is lowered from the first numbers on, and everything but the methods is taken over from its
heads. -/
theorem ofProgram_ok {defaultConstructor : Bool} {program : Source.Program} {unit : Code.ClassUnit} :
    ofProgram defaultConstructor program = .ok unit ↔
      ∃ lowered fresh', (methods (.ofProgram program) program.decl.methods).run .start =
          .ok lowered fresh' ∧
        unit = {
          name := program.decl.name
          superClass := program.decl.superClass
          imports := program.imports.map (String.intercalate ".")
          fields := program.decl.fields.map variableOf
          methods := lowered
          hasDefaultConstructor := defaultConstructor } := by
  have hRun : ofProgram defaultConstructor program = .ok unit ↔ ∃ fresh',
      (classUnit defaultConstructor program (.ofProgram program)).run .start = .ok unit fresh' := by
    unfold ofProgram answer
    cases (classUnit defaultConstructor program (.ofProgram program)).run .start <;> simp
  rw [hRun]
  simp only [classUnit, run_bind_ok, run_pure_ok, EStateM.run_set, EStateM.Result.ok.injEq]
  constructor
  · rintro ⟨fresh', _, _, ⟨_, rfl⟩, lowered, _, hMethods, rfl, rfl⟩
    exact ⟨lowered, fresh', hMethods, rfl⟩
  · rintro ⟨lowered, fresh', hMethods, rfl⟩
    exact ⟨fresh', ⟨⟩, .start, ⟨trivial, rfl⟩, lowered, _, hMethods, rfl, rfl⟩

end Statements

end MiniJava.Lowering
