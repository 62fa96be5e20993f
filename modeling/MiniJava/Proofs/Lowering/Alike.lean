import MiniJava.Proofs.Code.Alike
import MiniJava.Proofs.Lowering.MethodMeaning
import Mathlib.Logic.Relator
import Mathlib.Order.Monotone.Basic

/-! What the numbers reached so far do to the code of a phrase: they choose the names of its
temporaries and the numbers of its labels, and nothing else. A phrase lowered twice, from different
numbers, gives code that is alike. -/

namespace MiniJava.Lowering

open Code (CodeAlike Condition Instr Label Operand)
open Source (Expr MethodDecl Program Stmt SymbolTable)

/-- The number of the temporary that is taken after `n` others, from number `next` on. It depends on the
names taken and on nothing else that lowering has done. -/
def laterTemp (taken : List String) : Nat → Nat → Nat
  | next, 0 => firstFree taken next
  | next, n + 1 => laterTemp taken (firstFree taken next + 1) n

variable {scope : Scope} {names : String → String → Prop} {labels : Label → Label → Prop}
  {fresh fresh' after after' : Fresh}

/-- The temporaries and labels that are still to be taken stand for each other in turn. So two runs of
one lowering that start aligned give code alike and end aligned. -/
structure Aligned (scope : Scope) (names : String → String → Prop) (labels : Label → Label → Prop)
    (fresh fresh' : Fresh) : Prop where
  temps : ∀ n, names (tempName (laterTemp scope.takenNames fresh.nextTemp n))
    (tempName (laterTemp scope.takenNames fresh'.nextTemp n))
  labels : ∀ kind n, labels ⟨kind, fresh.nextLabel + n⟩ ⟨kind, fresh'.nextLabel + n⟩

namespace Aligned

/-- The temporaries taken next stand for each other, and so do those that are still to be taken then. -/
theorem newTemp {name name' : String} (h : Aligned scope names labels fresh fresh')
    (hRun : scope.newTemp.run fresh = .ok name after)
    (hRun' : scope.newTemp.run fresh' = .ok name' after') :
    names name name' ∧ Aligned scope names labels after after' := by
  rw [newTemp_run] at hRun hRun'
  obtain ⟨rfl, rfl⟩ := hRun
  obtain ⟨rfl, rfl⟩ := hRun'
  exact ⟨h.temps 0, fun n => h.temps (n + 1), h.labels⟩

/-- The labels of the next number stand for each other, of whichever kind they are. -/
theorem nextLabel (h : Aligned scope names labels fresh fresh') :
    (∀ kind, labels ⟨kind, fresh.nextLabel⟩ ⟨kind, fresh'.nextLabel⟩) ∧
      Aligned scope names labels { fresh with nextLabel := fresh.nextLabel + 1 }
        { fresh' with nextLabel := fresh'.nextLabel + 1 } := by
  refine ⟨fun kind => h.labels kind 0, h.temps, fun kind n => ?_⟩
  have hLater := h.labels kind (1 + n)
  rwa [← Nat.add_assoc, ← Nat.add_assoc] at hLater

theorem newIfLabels {own own' : Label × Label} (h : Aligned scope names labels fresh fresh')
    (hRun : newIfLabels.run fresh = .ok own after)
    (hRun' : Lowering.newIfLabels.run fresh' = .ok own' after') :
    labels own.1 own'.1 ∧ labels own.2 own'.2 ∧ Aligned scope names labels after after' := by
  rw [newIfLabels_run] at hRun hRun'
  obtain ⟨rfl, rfl⟩ := hRun
  obtain ⟨rfl, rfl⟩ := hRun'
  exact ⟨h.nextLabel.1 _, h.nextLabel.1 _, h.nextLabel.2⟩

theorem newWhileLabels {own own' : Label × Label} (h : Aligned scope names labels fresh fresh')
    (hRun : newWhileLabels.run fresh = .ok own after)
    (hRun' : Lowering.newWhileLabels.run fresh' = .ok own' after') :
    labels own.1 own'.1 ∧ labels own.2 own'.2 ∧ Aligned scope names labels after after' := by
  rw [newWhileLabels_run] at hRun hRun'
  obtain ⟨rfl, rfl⟩ := hRun
  obtain ⟨rfl, rfl⟩ := hRun'
  exact ⟨h.nextLabel.1 _, h.nextLabel.1 _, h.nextLabel.2⟩

end Aligned

/-- Alike in the instruction that yields the value and in the code before it, under one correspondence of
names and of labels for both. -/
def Lowered.Alike (names : String → String → Prop) (labels : Label → Label → Prop)
    (l l' : Lowered) : Prop :=
  l.value.Alike names labels l'.value ∧ CodeAlike names labels l.code l'.code

theorem Lowered.Alike.ofOperand {o o' : Operand} (h : o.Alike names o') :
    (Lowered.ofOperand o).Alike names labels (.ofOperand o') := ⟨.operand h, .nil⟩

/-- Whether a value may stay where an operand is asked for does not depend on its names. -/
theorem isPlain_alike {value value' : Instr} (h : value.Alike names labels value') :
    isPlain value = isPlain value' := by
  cases h with
  | operand h => exact congrArg (!·) h.isElement_eq
  | _ => rfl

theorem condition?_alike {value value' : Instr} {c c' : Condition}
    (h : value.Alike names labels value') (hCondition : condition? value = some c)
    (hCondition' : condition? value' = some c') : c.Alike names c' := by
  cases h with
  | operand h =>
      obtain rfl := Option.some.inj hCondition
      obtain rfl := Option.some.inj hCondition'
      exact .single h
  | binary op hLeft hRight ty =>
      obtain ⟨_, hSame⟩ := Option.ite_none_right_eq_some.mp hCondition
      obtain ⟨_, hSame'⟩ := Option.ite_none_right_eq_some.mp hCondition'
      obtain rfl := Option.some.inj hSame
      obtain rfl := Option.some.inj hSame'
      exact .compare op hLeft hRight
  | _ => cases hCondition

/-- A value that is moved to a temporary goes to temporaries that stand for each other, and one that
stays does so on both sides. -/
theorem finish_alike {mayStay : Bool} {value value' : Instr} {code code' : List Instr}
    {l l' : Lowered} (h : Aligned scope names labels fresh fresh')
    (hValue : value.Alike names labels value') (hCode : CodeAlike names labels code code')
    (hRun : (finish scope mayStay value code).run fresh = .ok l after)
    (hRun' : (finish scope mayStay value' code').run fresh' = .ok l' after') :
    l.Alike names labels l' ∧ Aligned scope names labels after after' := by
  have hPlain := isPlain_alike hValue
  rcases finish_run.mp hRun with ⟨hStay, rfl, rfl⟩ | ⟨hStay, name, hTemp, rfl⟩
  · rcases finish_run.mp hRun' with ⟨_, rfl, rfl⟩ | ⟨hStay', _⟩
    · exact ⟨⟨hValue, hCode⟩, h⟩
    · rw [hPlain, hStay'] at hStay
      cases hStay
  · rcases finish_run.mp hRun' with ⟨hStay', _⟩ | ⟨_, name', hTemp', rfl⟩
    · rw [hPlain, hStay'] at hStay
      cases hStay
    · obtain ⟨hName, hAfter⟩ := h.newTemp hTemp hTemp'
      rw [hValue.valueType_eq] at *
      exact ⟨⟨.operand (.variable hName _),
        List.rel_append hCode (.cons (.assign (.variable hName _) _ hValue) .nil)⟩, hAfter⟩

/-- Items are stored to arrays whose names stand for each other, from operands that are alike. -/
theorem storeItems_alike {array array' : String} (hArray : names array array') (first : Nat)
    {values values' : List Operand} (h : List.Forall₂ (Operand.Alike names) values values') :
    CodeAlike names labels (storeItems array first values) (storeItems array' first values') := by
  induction h generalizing first with
  | nil => exact .nil
  | cons hValue _ ih =>
      simp only [storeItems, List.mapIdx_cons, Nat.add_zero]
      refine .cons (.assign (.element hArray (.literal _ _) _) _ (.operand hValue)) ?_
      have hLater := ih (first + 1)
      simpa only [storeItems, Nat.add_assoc, Nat.add_comm 1] using hLater

/-- Filling an array takes no numbers, so that what is still to be taken stays aligned. The two arrays
may have different names, as long as these stand for each other. -/
theorem fillArray_alike {array array' : String} (hArray : names array array')
    {values values' : List Operand} (h : List.Forall₂ (Operand.Alike names) values values')
    {code code' : List Instr} (hRun : (fillArray array values).run fresh = .ok code after)
    (hRun' : (fillArray array' values').run fresh' = .ok code' after') :
    CodeAlike names labels code code' := by
  obtain ⟨-, rfl, -⟩ := fillArray_run.mp hRun
  obtain ⟨-, rfl, -⟩ := fillArray_run.mp hRun'
  rw [h.length_eq]
  exact .cons (.assign (.variable hArray _) _
    (.call _ (.classRef _) _ (.cons (.literal _ _) .nil) _)) (storeItems_alike hArray 0 h)

theorem newObjectCode_alike {object object' : String} (hObject : names object object')
    (className : String) :
    CodeAlike names labels (newObjectCode object className) (newObjectCode object' className) :=
  .cons (.assign (.variable hObject _) _ (.call _ (.classRef _) _ .nil _))
    (.cons (.call _ (.variable hObject _) _ .nil _) .nil)

theorem shortCircuit_alike {own own' : Label × Label} (hBody : labels own.1 own'.1)
    (hEnd : labels own.2 own'.2) {result result' : Operand} (hResult : result.Alike names result')
    {test test' : Condition} (hTest : test.Alike names test') {right right' : Operand}
    (hRight : right.Alike names right') {code code' : List Instr}
    (hCode : CodeAlike names labels code code') :
    CodeAlike names labels (shortCircuit own result test (right, code))
      (shortCircuit own' result' test' (right', code')) :=
  List.rel_append
    (List.rel_append
      (.cons (.branch hTest hBody) (.cons (.assign hResult _ (.operand (.literal _ _)))
        (.cons (.goto hEnd) (.cons (.label hBody) .nil)))) hCode)
    (.cons (.assign hResult _ (.operand hRight)) (.cons (.label hEnd) .nil))

/-- An expression lowered twice, from numbers that are aligned, gives code that is alike and leaves
the numbers aligned. -/
def Steady (scope : Scope) (names : String → String → Prop) (labels : Label → Label → Prop)
    (e : Expr) : Prop :=
  ∀ ⦃use fresh fresh' l l' after after'⦄, Aligned scope names labels fresh fresh' →
    (expr scope e use).run fresh = .ok l after → (expr scope e use).run fresh' = .ok l' after' →
      l.Alike names labels l' ∧ Aligned scope names labels after after'

namespace Steady

variable {e : Expr} {code code' : List Instr}

/-- What is steady for all uses of an expression is steady where an operand is asked for. The operands
are alike, and what is still to be taken is aligned again. -/
theorem operand {o o' : Operand} (he : Steady scope names labels e)
    (h : Aligned scope names labels fresh fresh')
    (hRun : (operand scope e).run fresh = .ok (o, code) after)
    (hRun' : (Lowering.operand scope e).run fresh' = .ok (o', code') after') :
    o.Alike names o' ∧ CodeAlike names labels code code' ∧
      Aligned scope names labels after after' := by
  obtain ⟨⟨hValue, hCode⟩, hAfter⟩ := he h (operand_run.mp hRun) (operand_run.mp hRun')
  cases hValue with
  | operand hOperand => exact ⟨hOperand, hCode, hAfter⟩

/-- A condition is the expression or a comparison of two operands, on both sides alike. -/
theorem condition {c c' : Condition} (he : Steady scope names labels e)
    (h : Aligned scope names labels fresh fresh')
    (hRun : (condition scope e).run fresh = .ok (c, code) after)
    (hRun' : (Lowering.condition scope e).run fresh' = .ok (c', code') after') :
    c.Alike names c' ∧ CodeAlike names labels code code' ∧
      Aligned scope names labels after after' := by
  obtain ⟨value, hLower, hCondition⟩ := condition_run.mp hRun
  obtain ⟨value', hLower', hCondition'⟩ := condition_run.mp hRun'
  obtain ⟨⟨hValue, hCode⟩, hAfter⟩ := he h hLower hLower'
  exact ⟨condition?_alike hValue hCondition hCondition', hCode, hAfter⟩

/-- Operands are lowered one after another, each from numbers that the one before has left aligned. -/
theorem operands {es : List Expr} (hes : ∀ e ∈ es, Steady scope names labels e)
    {os os' : List Operand} (h : Aligned scope names labels fresh fresh')
    (hRun : (operands scope es).run fresh = .ok (os, code) after)
    (hRun' : (Lowering.operands scope es).run fresh' = .ok (os', code') after') :
    List.Forall₂ (Operand.Alike names) os os' ∧ CodeAlike names labels code code' ∧
      Aligned scope names labels after after' := by
  induction es generalizing fresh fresh' os os' code code' with
  | nil =>
      obtain ⟨rfl, rfl, rfl⟩ := operands_nil_run.mp hRun
      obtain ⟨rfl, rfl, rfl⟩ := operands_nil_run.mp hRun'
      exact ⟨.nil, .nil, h⟩
  | cons e rest ih =>
      obtain ⟨hHead, hRest⟩ := List.forall_mem_cons.mp hes
      obtain ⟨_, _, _, _, _, hFirst, hOthers, rfl, rfl⟩ := operands_cons_run.mp hRun
      obtain ⟨_, _, _, _, _, hFirst', hOthers', rfl, rfl⟩ := operands_cons_run.mp hRun'
      obtain ⟨hOperand, hCode, h₁⟩ := hHead.operand h hFirst hFirst'
      obtain ⟨hOperands, hRestCode, hAfter⟩ := ih hRest h₁ hOthers hOthers'
      exact ⟨.cons hOperand hOperands, List.rel_append hCode hRestCode, hAfter⟩

end Steady

theorem identifier_alike (hTaken : ∀ name ∈ scope.takenNames, names name name) {name : String}
    {l l' : Lowered} (h : Aligned scope names labels fresh fresh')
    (hRun : (identifier scope name).run fresh = .ok l after)
    (hRun' : (identifier scope name).run fresh' = .ok l' after') :
    l.Alike names labels l' ∧ Aligned scope names labels after after' := by
  unfold identifier at hRun hRun'
  cases hLookup : scope.method.lookup? name with
  | some declared =>
      rw [hLookup] at hRun hRun'
      obtain ⟨rfl, rfl⟩ := run_pure_ok.mp hRun
      obtain ⟨rfl, rfl⟩ := run_pure_ok.mp hRun'
      exact ⟨.ofOperand (.variable (hTaken name (lookup_mem_takenNames hLookup)) _), h⟩
  | none =>
      rw [hLookup] at hRun hRun'
      cases hField : scope.symbols.visibleField? scope.method.name name with
      | some field =>
          rw [hField] at hRun hRun'
          exact finish_alike h (.getField (.self _) name _) .nil hRun hRun'
      | none =>
          rw [hField] at hRun hRun'
          by_cases hClass : scope.symbols.isClassReference name = true
          · simp only [hClass, if_true] at hRun hRun'
            obtain ⟨rfl, rfl⟩ := run_pure_ok.mp hRun
            obtain ⟨rfl, rfl⟩ := run_pure_ok.mp hRun'
            exact ⟨.ofOperand (.classRef name), h⟩
          · simp only [hClass] at hRun
            exact (run_throw_ok hRun).elim

/-- How many arguments a call passes as they are depends on the class of its target, not on names. -/
theorem fixedArity?_alike {target target' : Operand} (h : target.Alike names target')
    (ty : Source.Ty) (method : String) :
    scope.fixedArity? target ty method = scope.fixedArity? target' ty method := by
  cases h <;> rfl

/-- What a call goes to is settled by its receiver, and looks alike on both sides. -/
theorem callTarget_alike {receiver : Expr} (hReceiver : Steady scope names labels receiver)
    {kind kind' : Code.CallKind} {target target' : Operand} {code code' : List Instr}
    (h : Aligned scope names labels fresh fresh')
    (hRun : (callTarget scope receiver (operand scope receiver)).run fresh =
      .ok (kind, target, code) after)
    (hRun' : (callTarget scope receiver (operand scope receiver)).run fresh' =
      .ok (kind', target', code') after') :
    kind = kind' ∧ target.Alike names target' ∧ CodeAlike names labels code code' ∧
      Aligned scope names labels after after' := by
  rcases callTarget_run.mp hRun with ⟨_, hStatic, rfl, rfl, rfl, rfl⟩ | ⟨hStatic, rfl, hObject⟩
  · rcases callTarget_run.mp hRun' with ⟨_, hStatic', rfl, rfl, rfl, rfl⟩ | ⟨hStatic', _⟩
    · obtain rfl := Option.some.inj (hStatic.symm.trans hStatic')
      exact ⟨rfl, .classRef _, .nil, h⟩
    · cases hStatic.symm.trans hStatic'
  · rcases callTarget_run.mp hRun' with ⟨_, hStatic', _⟩ | ⟨_, rfl, hObject'⟩
    · cases hStatic.symm.trans hStatic'
    · exact ⟨rfl, hReceiver.operand h hObject hObject'⟩

/-- Arguments are collected on both sides or on neither, in arrays whose names stand for each other. -/
theorem collect_alike {arity : Option Nat} {arguments : List Expr}
    {os os' values values' : List Operand} {code code' : List Instr}
    (h : Aligned scope names labels fresh fresh')
    (hOperands : List.Forall₂ (Operand.Alike names) os os')
    (hRun : (collect scope arity arguments os).run fresh = .ok (values, code) after)
    (hRun' : (collect scope arity arguments os').run fresh' = .ok (values', code') after') :
    List.Forall₂ (Operand.Alike names) values values' ∧ CodeAlike names labels code code' ∧
      Aligned scope names labels after after' := by
  rcases collect_run.mp hRun with ⟨hAll, rfl, rfl, rfl⟩ | ⟨n, array, rfl, hOne, hTemp, hFill, rfl⟩
  · rcases collect_run.mp hRun' with ⟨_, rfl, rfl, rfl⟩ | ⟨n, _, rfl, hOne, _⟩
    · exact ⟨hOperands, .nil, h⟩
    · rw [Option.all_some, hOne] at hAll
      cases hAll
  · rcases collect_run.mp hRun' with ⟨hAll, _⟩ | ⟨_, array', ⟨⟩, _, hTemp', hFill', rfl⟩
    · rw [Option.all_some, hOne] at hAll
      cases hAll
    · obtain ⟨hArray, hAfter⟩ := h.newTemp hTemp hTemp'
      refine ⟨List.rel_append (List.forall₂_take n hOperands) (.cons (.variable hArray _) .nil),
        fillArray_alike hArray (List.forall₂_drop n hOperands) hFill hFill', hAfter⟩

/-- Every expression is steady, by induction on the expression: lowering looks at numbers only to name
temporaries and labels. -/
theorem steady (hTaken : ∀ name ∈ scope.takenNames, names name name) (e : Expr) :
    Steady scope names labels e := by
  induction e with
  | intLiteral value | boolLiteral value | self ty =>
      intro use fresh fresh' l l' after after' h hRun hRun'
      obtain ⟨rfl, rfl⟩ := run_pure_ok.mp hRun
      obtain ⟨rfl, rfl⟩ := run_pure_ok.mp hRun'
      exact ⟨.ofOperand (by constructor), h⟩
  | ident name ty =>
      intro use fresh fresh' l l' after after' h hRun hRun'
      exact identifier_alike hTaken h hRun hRun'
  | paren inner hInner => exact hInner
  | index base place ty hBase hPlace =>
      intro use fresh fresh' l l' after after' h hRun hRun'
      obtain ⟨_, _, _, _, _, _, _, hLower, hLowerPlace, hArray, hFinish⟩ := expr_index_run.mp hRun
      obtain ⟨_, _, _, _, _, _, _, hLower', hLowerPlace', hArray', hFinish'⟩ :=
        expr_index_run.mp hRun'
      obtain ⟨hOperand, hCode, h₁⟩ := hBase.operand h hLower hLower'
      obtain ⟨hIndex, hPlaceCode, h₂⟩ := hPlace.operand h₁ hLowerPlace hLowerPlace'
      exact finish_alike h₂ (.operand (.element (hOperand.variableName hArray hArray') hIndex _))
        (List.rel_append hCode hPlaceCode) hFinish hFinish'
  | not operand hOperand =>
      intro use fresh fresh' l l' after after' h hRun hRun'
      obtain ⟨_, _, _, hLower, hFinish⟩ := expr_not_run.mp hRun
      obtain ⟨_, _, _, hLower', hFinish'⟩ := expr_not_run.mp hRun'
      obtain ⟨hValue, hCode, h₁⟩ := hOperand.operand h hLower hLower'
      exact finish_alike h₁ (.not hValue _) hCode hFinish hFinish'
  | newArray size hSize =>
      intro use fresh fresh' l l' after after' h hRun hRun'
      obtain ⟨_, _, _, hLower, hFinish⟩ := expr_newArray_run.mp hRun
      obtain ⟨_, _, _, hLower', hFinish'⟩ := expr_newArray_run.mp hRun'
      obtain ⟨hValue, hCode, h₁⟩ := hSize.operand h hLower hLower'
      exact finish_alike h₁ (.call _ (.classRef _) _ (.cons hValue .nil) _) hCode hFinish hFinish'
  | newObject className =>
      intro use fresh fresh' l l' after after' h hRun hRun'
      obtain ⟨_, hTemp, rfl⟩ := expr_newObject_run.mp hRun
      obtain ⟨_, hTemp', rfl⟩ := expr_newObject_run.mp hRun'
      obtain ⟨hObject, hAfter⟩ := h.newTemp hTemp hTemp'
      exact ⟨⟨.operand (.variable hObject _), newObjectCode_alike hObject className⟩, hAfter⟩
  | arrayLiteral elements hElements =>
      intro use fresh fresh' l l' after after' h hRun hRun'
      obtain ⟨_, _, _, _, _, hLower, hTemp, hFill, rfl⟩ := expr_arrayLiteral_run.mp hRun
      obtain ⟨_, _, _, _, _, hLower', hTemp', hFill', rfl⟩ := expr_arrayLiteral_run.mp hRun'
      obtain ⟨hValues, hCode, h₁⟩ := Steady.operands hElements h hLower hLower'
      obtain ⟨hArray, hAfter⟩ := h₁.newTemp hTemp hTemp'
      exact ⟨⟨.operand (.variable hArray _),
        List.rel_append hCode (fillArray_alike hArray hValues hFill hFill')⟩, hAfter⟩
  | binary op left right ty hLeft hRight =>
      intro use fresh fresh' l l' after after' h hRun hRun'
      by_cases hOp : op = .and
      · subst hOp
        obtain ⟨_, _, _, _, _, _, _, _, _, hLower, hLabels, hTemp, hLowerRight, rfl⟩ :=
          expr_and_run.mp hRun
        obtain ⟨_, _, _, _, _, _, _, _, _, hLower', hLabels', hTemp', hLowerRight', rfl⟩ :=
          expr_and_run.mp hRun'
        obtain ⟨hTest, hCode, h₁⟩ := hLeft.condition h hLower hLower'
        obtain ⟨hBody, hEnd, h₂⟩ := h₁.newIfLabels hLabels hLabels'
        obtain ⟨hResult, h₃⟩ := h₂.newTemp hTemp hTemp'
        obtain ⟨hValue, hRightCode, hAfter⟩ := hRight.operand h₃ hLowerRight hLowerRight'
        have hCircuit := shortCircuit_alike hBody hEnd (.variable hResult .boolean) hTest hValue
          hRightCode
        exact ⟨⟨.operand (.variable hResult _), List.rel_append hCode hCircuit⟩, hAfter⟩
      · obtain ⟨_, _, _, _, _, _, hLower, hLowerRight, hFinish⟩ := (expr_binary_run hOp).mp hRun
        obtain ⟨_, _, _, _, _, _, hLower', hLowerRight', hFinish'⟩ :=
          (expr_binary_run hOp).mp hRun'
        obtain ⟨hValue, hCode, h₁⟩ := hLeft.operand h hLower hLower'
        obtain ⟨hOther, hRightCode, h₂⟩ := hRight.operand h₁ hLowerRight hLowerRight'
        exact finish_alike h₂ (.binary _ hValue hOther _) (List.rel_append hCode hRightCode) hFinish
          hFinish'
  | call receiver method arguments ty hReceiver hArguments =>
      intro use fresh fresh' l l' after after' h hRun hRun'
      cases hLength : asksLength receiver method arguments with
      | true =>
          obtain ⟨_, _, _, hLower, hFinish⟩ := (expr_length_run hLength).mp hRun
          obtain ⟨_, _, _, hLower', hFinish'⟩ := (expr_length_run hLength).mp hRun'
          obtain ⟨hArray, hCode, h₁⟩ := hReceiver.operand h hLower hLower'
          exact finish_alike h₁ (.call _ hArray _ .nil _) hCode hFinish hFinish'
      | false =>
          obtain ⟨_, _, _, _, _, _, _, _, _, _, hTarget, hLower, hCollect, hFinish⟩ :=
            (expr_call_run hLength).mp hRun
          obtain ⟨_, _, _, _, _, _, _, _, _, _, hTarget', hLower', hCollect', hFinish'⟩ :=
            (expr_call_run hLength).mp hRun'
          obtain ⟨rfl, hObject, hCode, h₁⟩ := callTarget_alike hReceiver h hTarget hTarget'
          obtain ⟨hOperands, hArgumentCode, h₂⟩ := Steady.operands hArguments h₁ hLower hLower'
          rw [fixedArity?_alike hObject] at hCollect
          obtain ⟨hValues, hCollectCode, h₃⟩ := collect_alike h₂ hOperands hCollect hCollect'
          exact finish_alike h₃ (.call _ hObject _ hValues _)
            (List.rel_append (List.rel_append hCode hArgumentCode) hCollectCode)
            ((finishCall_run rfl).mp hFinish).2 ((finishCall_run rfl).mp hFinish').2

section Statements

variable {code code' : List Instr}

theorem assignName_alike (hTaken : ∀ name ∈ scope.takenNames, names name name) {name : String}
    {value : Expr} (h : Aligned scope names labels fresh fresh')
    (hRun : (assignName scope name value).run fresh = .ok code after)
    (hRun' : (assignName scope name value).run fresh' = .ok code' after') :
    CodeAlike names labels code code' ∧ Aligned scope names labels after after' := by
  rcases assignName_run.mp hRun with ⟨_, _, hLookup, hLower, rfl⟩ | ⟨_, _, _, hLookup, hField, hLower,
    rfl⟩
  · rcases assignName_run.mp hRun' with ⟨_, _, hLookup', hLower', rfl⟩ | ⟨_, _, _, hLookup', _⟩
    · obtain rfl := Option.some.inj (hLookup.symm.trans hLookup')
      obtain ⟨⟨hValue, hCode⟩, hAfter⟩ := steady hTaken value h hLower hLower'
      have hName := hTaken name (lookup_mem_takenNames hLookup)
      exact ⟨List.rel_append hCode (.cons (.assign (.variable hName _) _ hValue) .nil), hAfter⟩
    · cases hLookup.symm.trans hLookup'
  · rcases assignName_run.mp hRun' with ⟨_, _, hLookup', _⟩ | ⟨_, _, _, _, hField', hLower', rfl⟩
    · cases hLookup.symm.trans hLookup'
    · obtain rfl := Option.some.inj (hField.symm.trans hField')
      obtain ⟨hValue, hCode, hAfter⟩ := (steady hTaken value).operand h hLower hLower'
      exact ⟨List.rel_append hCode (.cons (.putField (.self _) name _ hValue) .nil), hAfter⟩

/-- An assignment to an item lowers its value first and then the array and the place, on both sides in
this order. -/
theorem assignElement_alike (hTaken : ∀ name ∈ scope.takenNames, names name name)
    {base place value : Expr} {ty : Source.Ty} (h : Aligned scope names labels fresh fresh')
    (hRun : (assignElement scope base place ty value).run fresh = .ok code after)
    (hRun' : (assignElement scope base place ty value).run fresh' = .ok code' after') :
    CodeAlike names labels code code' ∧ Aligned scope names labels after after' := by
  obtain ⟨_, _, _, _, _, _, _, _, hLower, hBase, hPlace, hArray, rfl⟩ := assignElement_run.mp hRun
  obtain ⟨_, _, _, _, _, _, _, _, hLower', hBase', hPlace', hArray', rfl⟩ :=
    assignElement_run.mp hRun'
  obtain ⟨⟨hValue, hCode⟩, h₁⟩ := steady hTaken value h hLower hLower'
  obtain ⟨hOperand, hBaseCode, h₂⟩ := (steady hTaken base).operand h₁ hBase hBase'
  obtain ⟨hIndex, hPlaceCode, hAfter⟩ := (steady hTaken place).operand h₂ hPlace hPlace'
  have hElement := Operand.Alike.element (hOperand.variableName hArray hArray') hIndex (.ofSource ty)
  exact ⟨List.rel_append (List.rel_append (List.rel_append hCode hBaseCode) hPlaceCode)
    (.cons (.assign hElement _ hValue) .nil), hAfter⟩

theorem assign_alike (hTaken : ∀ name ∈ scope.takenNames, names name name) {target value : Expr}
    (h : Aligned scope names labels fresh fresh')
    (hRun : (assign scope target value).run fresh = .ok code after)
    (hRun' : (assign scope target value).run fresh' = .ok code' after') :
    CodeAlike names labels code code' ∧ Aligned scope names labels after after' := by
  rcases assign_run.mp hRun with ⟨_, _, hTarget, hName⟩ | ⟨_, _, _, hTarget, hElement⟩
  · rcases assign_run.mp hRun' with ⟨_, _, hTarget', hName'⟩ | ⟨_, _, _, hTarget', _⟩
    · cases hTarget.symm.trans hTarget'
      exact assignName_alike hTaken h hName hName'
    · cases hTarget.symm.trans hTarget'
  · rcases assign_run.mp hRun' with ⟨_, _, hTarget', _⟩ | ⟨_, _, _, hTarget', hElement'⟩
    · cases hTarget.symm.trans hTarget'
    · cases hTarget.symm.trans hTarget'
      exact assignElement_alike hTaken h hElement hElement'

theorem ret_alike (hTaken : ∀ name ∈ scope.takenNames, names name name) {value : Option Expr}
    (h : Aligned scope names labels fresh fresh')
    (hRun : (ret scope value).run fresh = .ok code after)
    (hRun' : (ret scope value).run fresh' = .ok code' after') :
    CodeAlike names labels code code' ∧ Aligned scope names labels after after' := by
  cases value with
  | none =>
      obtain ⟨rfl, rfl⟩ := ret_none_run.mp hRun
      obtain ⟨rfl, rfl⟩ := ret_none_run.mp hRun'
      exact ⟨.cons (.retNone _) .nil, h⟩
  | some e =>
      obtain ⟨_, _, hLower, rfl⟩ := ret_some_run.mp hRun
      obtain ⟨_, _, hLower', rfl⟩ := ret_some_run.mp hRun'
      obtain ⟨hValue, hCode, hAfter⟩ := (steady hTaken e).operand h hLower hLower'
      exact ⟨List.rel_append hCode (.cons (.retSome hValue _) .nil), hAfter⟩

/-- Whether a value that is dropped stands as an instruction can be told without names. -/
theorem discarded_alike {l l' : Lowered} (h : l.Alike names labels l') :
    CodeAlike names labels (discarded l) (discarded l') := by
  obtain ⟨value, code⟩ := l
  obtain ⟨value', code'⟩ := l'
  obtain ⟨hValue, hCode⟩ := h
  have hStatement := List.rel_append hCode (.cons hValue .nil)
  cases hValue with
  | operand _ => exact hCode
  | _ => exact hStatement

theorem conditional_alike {own own' : Label × Label} (hBody : labels own.1 own'.1)
    (hEnd : labels own.2 own'.2) {test test' : Condition} (hTest : test.Alike names test')
    {thenCode thenCode' elseCode elseCode' : List Instr}
    (hThen : CodeAlike names labels thenCode thenCode')
    (hElse : CodeAlike names labels elseCode elseCode') :
    CodeAlike names labels (conditional own test thenCode elseCode)
      (conditional own' test' thenCode' elseCode') :=
  .cons (.branch hTest hBody)
    (List.rel_append
      (List.rel_append hElse (.cons (.goto hEnd) (.cons (.label hBody) hThen)))
      (.cons (.label hEnd) .nil))

theorem whileLoop_alike {own own' : Label × Label} (hBody : labels own.1 own'.1)
    (hEnd : labels own.2 own'.2) {entry entry' again again' : Condition}
    (hEntry : entry.Alike names entry') (hAgain : again.Alike names again')
    {bodyCode bodyCode' testCode testCode' : List Instr}
    (hBodyCode : CodeAlike names labels bodyCode bodyCode')
    (hTestCode : CodeAlike names labels testCode testCode') :
    CodeAlike names labels (whileLoop own entry bodyCode (again, testCode))
      (whileLoop own' entry' bodyCode' (again', testCode')) :=
  .cons (.branch hEntry hBody) (.cons (.goto hEnd) (.cons (.label hBody)
    (List.rel_append (List.rel_append hBodyCode hTestCode)
      (.cons (.branch hAgain hBody) (.cons (.label hEnd) .nil)))))

/-- A statement lowered twice, from numbers that are aligned, gives code that is alike and leaves
the numbers aligned. -/
def SteadyStmt (scope : Scope) (names : String → String → Prop) (labels : Label → Label → Prop)
    (s : Stmt) : Prop :=
  ∀ ⦃fresh fresh' code code' after after'⦄, Aligned scope names labels fresh fresh' →
    (stmt scope s).run fresh = .ok code after → (stmt scope s).run fresh' = .ok code' after' →
      CodeAlike names labels code code' ∧ Aligned scope names labels after after'

/-- Statements are lowered one after another, each from numbers that the one before has left aligned. -/
theorem SteadyStmt.stmts {ss : List Stmt} (hss : ∀ s ∈ ss, SteadyStmt scope names labels s)
    (h : Aligned scope names labels fresh fresh')
    (hRun : (stmts scope ss).run fresh = .ok code after)
    (hRun' : (Lowering.stmts scope ss).run fresh' = .ok code' after') :
    CodeAlike names labels code code' ∧ Aligned scope names labels after after' := by
  induction ss generalizing fresh fresh' code code' with
  | nil =>
      obtain ⟨rfl, rfl⟩ := stmts_nil_run.mp hRun
      obtain ⟨rfl, rfl⟩ := stmts_nil_run.mp hRun'
      exact ⟨.nil, h⟩
  | cons s rest ih =>
      obtain ⟨hHead, hRest⟩ := List.forall_mem_cons.mp hss
      obtain ⟨_, _, _, hFirst, hOthers, rfl⟩ := stmts_cons_run.mp hRun
      obtain ⟨_, _, _, hFirst', hOthers', rfl⟩ := stmts_cons_run.mp hRun'
      obtain ⟨hCode, h₁⟩ := hHead h hFirst hFirst'
      obtain ⟨hRestCode, hAfter⟩ := ih hRest h₁ hOthers hOthers'
      exact ⟨List.rel_append hCode hRestCode, hAfter⟩

theorem steadyStmt (hTaken : ∀ name ∈ scope.takenNames, names name name) (s : Stmt) :
    SteadyStmt scope names labels s := by
  induction s with
  | block statements hStatements =>
      intro fresh fresh' code code' after after' h hRun hRun'
      exact SteadyStmt.stmts hStatements h hRun hRun'
  | cond test thenBranch elseBranch hThen hElse =>
      intro fresh fresh' code code' after after' h hRun hRun'
      obtain ⟨_, _, _, _, fresh₂, _, fresh₃, _, hTest, hLabels, hLowerElse, hLowerThen, rfl⟩ :=
        stmt_cond_run.mp hRun
      obtain ⟨_, _, _, _, fresh₂', _, fresh₃', _, hTest', hLabels', hLowerElse', hLowerThen', rfl⟩ :=
        stmt_cond_run.mp hRun'
      obtain ⟨hCondition, hTestCode, h₁⟩ := (steady hTaken test).condition h hTest hTest'
      obtain ⟨hBody, hEnd, h₂⟩ := h₁.newIfLabels hLabels hLabels'
      have hElseCode : ∀ {code code'}, (optionalStmt scope elseBranch).run fresh₂ = .ok code fresh₃ →
          (optionalStmt scope elseBranch).run fresh₂' = .ok code' fresh₃' →
            CodeAlike names labels code code' ∧ Aligned scope names labels fresh₃ fresh₃' := by
        cases elseBranch with
        | none =>
            intro code code' hSkip hSkip'
            obtain ⟨rfl, rfl⟩ := run_pure_ok.mp hSkip
            obtain ⟨rfl, rfl⟩ := run_pure_ok.mp hSkip'
            exact ⟨.nil, h₂⟩
        | some s => exact fun hLower hLower' => hElse s rfl h₂ hLower hLower'
      obtain ⟨hElseCode, h₃⟩ := hElseCode hLowerElse hLowerElse'
      obtain ⟨hThenCode, hAfter⟩ := hThen h₃ hLowerThen hLowerThen'
      exact ⟨List.rel_append hTestCode (conditional_alike hBody hEnd hCondition hThenCode hElseCode),
        hAfter⟩
  | loop test body hBody =>
      intro fresh fresh' code code' after after' h hRun hRun'
      obtain ⟨_, _, _, _, _, _, _, _, _, hTest, hLabels, hLower, hTestAgain, rfl⟩ :=
        stmt_loop_run.mp hRun
      obtain ⟨_, _, _, _, _, _, _, _, _, hTest', hLabels', hLower', hTestAgain', rfl⟩ :=
        stmt_loop_run.mp hRun'
      obtain ⟨hEntry, hTestCode, h₁⟩ := (steady hTaken test).condition h hTest hTest'
      obtain ⟨hFirst, hEnd, h₂⟩ := h₁.newWhileLabels hLabels hLabels'
      obtain ⟨hBodyCode, h₃⟩ := hBody h₂ hLower hLower'
      obtain ⟨hAgain, hAgainCode, hAfter⟩ :=
        (steady hTaken test).condition h₃ hTestAgain hTestAgain'
      exact ⟨List.rel_append hTestCode
        (whileLoop_alike hFirst hEnd hEntry hAgain hBodyCode hAgainCode), hAfter⟩
  | assign target value => exact fun _ _ _ _ _ _ h hRun hRun' => assign_alike hTaken h hRun hRun'
  | ret value => exact fun _ _ _ _ _ _ h hRun hRun' => ret_alike hTaken h hRun hRun'
  | eval e =>
      intro fresh fresh' code code' after after' h hRun hRun'
      obtain ⟨_, hLower, rfl⟩ := stmt_eval_run.mp hRun
      obtain ⟨_, hLower', rfl⟩ := stmt_eval_run.mp hRun'
      obtain ⟨hLowered, hAfter⟩ := steady hTaken e h hLower hLower'
      exact ⟨discarded_alike hLowered, hAfter⟩

end Statements

theorem laterTemp_ge (taken : List String) (next n : Nat) : next ≤ laterTemp taken next n := by
  induction n generalizing next with
  | zero => exact firstFree_ge taken next
  | succ n ih =>
      have hFirst := firstFree_ge taken next
      have hLater := ih (firstFree taken next + 1)
      rw [laterTemp]
      omega

theorem laterTemp_strictMono (taken : List String) (next : Nat) :
    StrictMono (laterTemp taken next) := by
  refine strictMono_nat_of_lt_succ fun n => ?_
  induction n generalizing next with
  | zero => exact laterTemp_ge taken (firstFree taken next + 1) 0
  | succ n ih => exact ih (firstFree taken next + 1)

theorem tempName_laterTemp (taken : List String) (next n : Nat) :
    tempName (laterTemp taken next n) ∉ taken := by
  induction n generalizing next with
  | zero => exact tempName_firstFree taken next
  | succ n ih => exact ih (firstFree taken next + 1)

theorem tempName_laterTemp_injective (taken : List String) (next : Nat) :
    Function.Injective fun n => tempName (laterTemp taken next n) :=
  fun _ _ h => (laterTemp_strictMono taken next).injective (tempName_injective h)

/-- Names that stand for each other in code from two numbers on: what is declared stands for itself,
and the temporaries stand for each other in the order in which they are taken. -/
def SameName (scope : Scope) (fresh fresh' : Fresh) (name name' : String) : Prop :=
  (name ∈ scope.takenNames ∧ name' = name) ∨
    ∃ n, name = tempName (laterTemp scope.takenNames fresh.nextTemp n) ∧
      name' = tempName (laterTemp scope.takenNames fresh'.nextTemp n)

/-- Labels that stand for each other: of one kind, and as many numbers after the ones from which the two
codes began. -/
def SameLabel (fresh fresh' : Fresh) (l l' : Label) : Prop :=
  l.kind = l'.kind ∧ ∃ n, l.id = fresh.nextLabel + n ∧ l'.id = fresh'.nextLabel + n

/-- What is still to be taken from two states is aligned in this way, whatever the states are. -/
theorem aligned_same (scope : Scope) (fresh fresh' : Fresh) :
    Aligned scope (SameName scope fresh fresh') (SameLabel fresh fresh') fresh fresh' :=
  ⟨fun n => .inr ⟨n, rfl, rfl⟩, fun _ n => ⟨rfl, n, rfl, rfl⟩⟩

/-- Exchanging the two sides leaves names that stand for each other as they are. -/
theorem sameName_symm {name name' : String} (h : SameName scope fresh fresh' name name') :
    SameName scope fresh' fresh name' name := by
  rcases h with ⟨hTaken, rfl⟩ | ⟨n, rfl, rfl⟩
  · exact .inl ⟨hTaken, rfl⟩
  · exact .inr ⟨n, rfl, rfl⟩

/-- No name stands for two: what is declared is no temporary, and different temporaries have different
numbers. -/
theorem sameName_rightUnique (scope : Scope) (fresh fresh' : Fresh) :
    Relator.RightUnique (SameName scope fresh fresh') := by
  rintro name first second (⟨hTaken, rfl⟩ | ⟨n, rfl, rfl⟩) (⟨hTaken', rfl⟩ | ⟨n', hName, rfl⟩)
  · rfl
  · subst hName
    exact (tempName_laterTemp _ _ _ hTaken).elim
  · exact (tempName_laterTemp _ _ _ hTaken').elim
  · obtain rfl := tempName_laterTemp_injective _ _ hName
    rfl

theorem sameName_biUnique (scope : Scope) (fresh fresh' : Fresh) :
    Relator.BiUnique (SameName scope fresh fresh') :=
  ⟨fun _ _ _ h h' => sameName_rightUnique _ _ _ (sameName_symm h) (sameName_symm h'),
    sameName_rightUnique scope fresh fresh'⟩

theorem sameLabel_biUnique (fresh fresh' : Fresh) : Relator.BiUnique (SameLabel fresh fresh') := by
  constructor
  · rintro ⟨kind, id⟩ ⟨kind', id'⟩ l ⟨hKind, n, hId, hSame⟩ ⟨hKind', n', hId', hSame'⟩
    dsimp only at hKind hKind' hId hId'
    obtain rfl := hKind.trans hKind'.symm
    obtain rfl : id = id' := by omega
    rfl
  · rintro l ⟨kind, id⟩ ⟨kind', id'⟩ ⟨hKind, n, hSame, hId⟩ ⟨hKind', n', hSame', hId'⟩
    dsimp only at hKind hKind' hId hId'
    obtain rfl := hKind.symm.trans hKind'
    obtain rfl : id = id' := by omega
    rfl

@[simp] theorem closed_parameters (m : Code.Method) : (closed m).parameters = m.parameters := by
  unfold closed
  split <;> rfl

/-- The return that is added at the end is added on both sides or on neither, because the last
instructions are of the same form. -/
theorem closed_alike {m : Code.Method} {code : List Instr}
    (h : CodeAlike names labels m.body code) :
    ∃ code', closed { m with body := code } = { closed m with body := code' } ∧
      CodeAlike names labels (closed m).body code' := by
  have hEnd : { m with body := code }.endsWithReturn = m.endsWithReturn :=
    (CodeAlike.getLast?_isReturn h).symm
  unfold closed
  rw [hEnd]
  dsimp only
  split
  · exact ⟨_, rfl, List.rel_append h (.cons (.retNone _) .nil)⟩
  · exact ⟨_, rfl, h⟩

/-- A method lowered twice, from any two numbers, has the same head and code that is alike. So nothing
that was lowered before it can be seen but by names and labels. -/
theorem method_alike {symbols : SymbolTable} {m : MethodDecl} {lowered lowered' : Code.Method}
    (hFound : symbols.method? m.name = some (.ofMethod m))
    (hRun : (method symbols m).run fresh = .ok lowered after)
    (hRun' : (method symbols m).run fresh' = .ok lowered' after') :
    lowered' = { lowered with body := lowered'.body } ∧
      CodeAlike (SameName ⟨symbols, .ofMethod m⟩ fresh fresh') (SameLabel fresh fresh') lowered.body
        lowered'.body ∧
      List.Forall₂ (SameName ⟨symbols, .ofMethod m⟩ fresh fresh') lowered.names lowered'.names := by
  obtain ⟨_, _, hSignature, hLower, rfl⟩ := method_run.mp hRun
  obtain ⟨_, _, hSignature', hLower', rfl⟩ := method_run.mp hRun'
  obtain rfl := Option.some.inj (hFound.symm.trans hSignature)
  obtain rfl := Option.some.inj (hFound.symm.trans hSignature')
  have hTaken : ∀ name ∈ (Scope.mk symbols (.ofMethod m)).takenNames,
      SameName ⟨symbols, .ofMethod m⟩ fresh fresh' name name := fun name hName => .inl ⟨hName, rfl⟩
  have hCode := (SteadyStmt.stmts (fun s _ => steadyStmt hTaken s) (aligned_same _ _ _) hLower
    hLower').1
  obtain ⟨code', hClosed, hBody⟩ := closed_alike (m := {
    name := m.name
    isPublic := m.isPublic
    isStatic := m.isStatic
    isVarargs := (Source.Signature.ofMethod m).isVarargs
    parameters := m.parameters.map variableOf
    returnType := .ofSource m.returnType
    body := _ }) hCode
  have hParameters : ∀ name ∈ (m.parameters.map variableOf).map (·.name),
      name ∈ (Scope.mk symbols (.ofMethod m)).takenNames := by
    intro name hName
    simp only [List.map_map, List.mem_map, Function.comp_apply] at hName
    obtain ⟨d, hMem, rfl⟩ := hName
    simp only [Scope.takenNames, List.map_append, List.mem_append, List.mem_map]
    exact .inl (.inr ⟨d, hMem, rfl⟩)
  have hHeadNames := List.forall₂_same.mpr fun name hName => hTaken name (hParameters name hName)
  have hBodyNames := CodeAlike.names_alike hBody
  rw [hClosed]
  refine ⟨rfl, hBody, ?_⟩
  unfold Code.Method.names
  rw [closed_parameters]
  exact List.rel_append hHeadNames hBodyNames

end MiniJava.Lowering
