import Mathlib.Logic.Relation
import MiniJava.Assembly.Class
import MiniJava.Proofs.Lowering.Uses
import MiniJava.Proofs.Source.Parentheses

/-!
Parentheses have no effect on the code. Lowering looks at the form or the type of some expressions,
and it looks through the parentheses around them.
-/

namespace MiniJava.Lowering

open Code (Condition Instr Operand)
open Source (Expr MethodDecl Program Stmt SymbolTable)

variable {scope : Scope}

/-- Only the report of what cannot happen names the form of the expression. So expressions that lower
alike give one operand or one failure. -/
theorem operand_congr {e e' : Expr} (h : ∀ use, expr scope e' use = expr scope e use) :
    operandOf e' (expr scope e' .value) = operandOf e (expr scope e .value) := by
  rw [h]
  refine bind_congr_of_run fun fresh l fresh' hLower => ?_
  obtain ⟨value, code⟩ := l
  obtain ⟨o, hOperand, -⟩ := serves_expr hLower
  obtain rfl : value = .operand o := hOperand
  rfl

theorem condition_congr {e e' : Expr} (h : ∀ use, expr scope e' use = expr scope e use) :
    conditionOf e' (expr scope e' .condition) = conditionOf e (expr scope e .condition) := by
  rw [h]
  refine bind_congr_of_run fun fresh l fresh' hLower => ?_
  obtain ⟨value, code⟩ := l
  obtain ⟨c, hTests, -⟩ := serves_expr hLower
  cases value with
  | operand o => rfl
  | binary op left right ty =>
      cases hComparison : op.isComparison with
      | true => simp [hComparison]
      | false => simp [condition?, hComparison] at hTests
  | _ => cases hTests

/-- One of several operands may be replaced by an expression that lowers alike. -/
theorem operands_congr {before after : List Expr} {e e' : Expr}
    (h : ∀ use, expr scope e' use = expr scope e use) :
    operands scope (before ++ e' :: after) = operands scope (before ++ e :: after) := by
  induction before with
  | nil => rw [List.nil_append, List.nil_append, operands, operands, operand_congr h]
  | cons first rest ih => rw [List.cons_append, List.cons_append, operands, operands, ih]

theorem isOneArray_congr {arguments arguments' : List Expr}
    (h : arguments'.map Expr.ty = arguments.map Expr.ty) :
    isOneArray arguments' = isOneArray arguments := by
  cases arguments with
  | nil =>
      obtain rfl := List.map_eq_nil_iff.mp h
      rfl
  | cons e rest =>
      obtain ⟨e', rest', rfl, hTy, hRest⟩ := List.map_eq_cons_iff.mp h
      cases rest with
      | nil =>
          obtain rfl := List.map_eq_nil_iff.mp hRest
          exact congrArg Source.Ty.isArray hTy
      | cons second others =>
          obtain ⟨_, _, rfl, -, -⟩ := List.map_eq_cons_iff.mp hRest
          rfl

theorem collect_congr {arguments arguments' : List Expr}
    (h : arguments'.map Expr.ty = arguments.map Expr.ty) (arity : Option Nat) (os : List Operand) :
    collect scope arity arguments' os = collect scope arity arguments os := by
  unfold collect
  cases arity with
  | none => rfl
  | some n =>
      have hDrop : isOneArray (arguments'.drop n) = isOneArray (arguments.drop n) :=
        isOneArray_congr (by rw [List.map_drop, h, List.map_drop])
      dsimp only
      rw [hDrop]

/-- A name in parentheses is taken for a class just as the bare name is, since lowering looks for the
bare receiver. -/
theorem callTarget_wrapped (scope : Scope) {e e' : Expr} (h : e.Wrapped e')
    (object : Lower (Operand × List Instr)) :
    callTarget scope e' object = callTarget scope e object := by
  have hStatic : scope.staticTarget? e' = scope.staticTarget? e := by
    induction h with
    | paren _ ih => exact ih
    | _ => rfl
  unfold callTarget
  rw [hStatic]

theorem asksLength_wrapped {e e' : Expr} (h : e.Wrapped e') (method : String)
    (arguments : List Expr) : asksLength e' method arguments = asksLength e method arguments := by
  rw [asksLength, asksLength, h.ty_eq]

theorem asksLength_argument (receiver : Expr) (method : String) (before after : List Expr)
    (e e' : Expr) :
    asksLength receiver method (before ++ e' :: after) =
      asksLength receiver method (before ++ e :: after) := by
  have hSome (e : Expr) : (before ++ e :: after).isEmpty = false := by cases before <;> rfl
  rw [asksLength, asksLength, hSome, hSome]

/-- Parentheses anywhere in an expression leave its lowering as it is, for every use and from whatever
numbers. Induction is on where they stand. -/
theorem expr_wrapped {e e' : Expr} (h : e.Wrapped e') (use : Use) :
    expr scope e' use = expr scope e use := by
  induction h generalizing use with
  | here e => rfl
  | paren _ ih => exact ih use
  | indexBase _ _ _ ih | indexPlace _ _ _ ih | not _ ih | newArray _ ih =>
      rw [expr, expr, operand_congr ih]
  | arrayLiteral _ _ _ ih => rw [expr, expr, operands_congr ih]
  | binaryLeft op right ty _ ih =>
      by_cases hOp : op = .and
      · subst hOp
        rw [expr, expr, condition_congr ih]
      · rw [expr, expr, operand_congr ih]
        · exact hOp
        · exact hOp
  | binaryRight op left ty _ ih =>
      by_cases hOp : op = .and
      · subst hOp
        rw [expr, expr, operand_congr ih]
      · rw [expr, expr, operand_congr ih]
        · exact hOp
        · exact hOp
  | receiver method arguments ty hWrapped ih =>
      rw [expr, expr, operand_congr ih, asksLength_wrapped hWrapped, callTarget_wrapped scope hWrapped,
        hWrapped.ty_eq]
  | @argument receiver method before e e' after ty hWrapped ih =>
      have hTypes : (before ++ e' :: after).map Expr.ty = (before ++ e :: after).map Expr.ty := by
        rw [List.map_append, List.map_cons, hWrapped.ty_eq, List.map_append, List.map_cons]
      simp only [expr, asksLength_argument receiver method before after e e', operands_congr ih,
        collect_congr hTypes]

theorem operand_wrapped {e e' : Expr} (h : e.Wrapped e') : operand scope e' = operand scope e :=
  operand_congr (expr_wrapped h)

theorem condition_wrapped {e e' : Expr} (h : e.Wrapped e') :
    condition scope e' = condition scope e := condition_congr (expr_wrapped h)

theorem assign_target_wrapped {target target' : Expr} (h : target.Wrapped target') (value : Expr) :
    assign scope target' value = assign scope target value := by
  induction h with
  | paren _ ih => exact ih
  | indexBase _ _ hWrapped | indexPlace _ _ hWrapped =>
      simp only [assign, Expr.bare, assignElement, operand_wrapped hWrapped]
  | _ => rfl

theorem assign_value_wrapped {value value' : Expr} (h : value.Wrapped value') (target : Expr) :
    assign scope target value' = assign scope target value := by
  simp only [assign, assignName, assignElement, expr_wrapped h, operand_wrapped h]

theorem stmts_congr {before after : List Stmt} {s s' : Stmt} (h : stmt scope s' = stmt scope s) :
    stmts scope (before ++ s' :: after) = stmts scope (before ++ s :: after) := by
  induction before with
  | nil => rw [List.nil_append, List.nil_append, stmts, stmts, h]
  | cons first rest ih => rw [List.cons_append, List.cons_append, stmts, stmts, ih]

theorem stmt_wrapped {s s' : Stmt} (h : s.Wrapped s') : stmt scope s' = stmt scope s := by
  induction h with
  | block _ _ _ ih => rw [stmt, stmt, stmts_congr ih]
  | condTest _ _ hTest | loopTest _ hTest => rw [stmt, stmt, condition_wrapped hTest]
  | thenBranch _ _ _ ih | loopBody _ _ ih => rw [stmt, stmt, ih]
  | elseBranch _ _ _ ih => rw [stmt, stmt, optionalStmt, optionalStmt, ih]
  | target value hTarget => rw [stmt, stmt, assign_target_wrapped hTarget]
  | value target hValue => rw [stmt, stmt, assign_value_wrapped hValue]
  | ret hValue => rw [stmt, stmt, ret, ret, operand_wrapped hValue]
  | eval hValue => rw [stmt, stmt, expr_wrapped hValue]

/-- Parentheses leave the head of a method as it is, and its body lowers alike. So methods are the same,
failures included. -/
theorem method_wrapped {m m' : MethodDecl} (h : m.Wrapped m') (symbols : SymbolTable) :
    method symbols m' = method symbols m := by
  cases h with
  | statement before after hBody hWrapped =>
      unfold method
      dsimp only
      rw [hBody]
      cases symbols.method? m.name with
      | none => rfl
      | some signature =>
          dsimp only
          rw [stmts_congr (stmt_wrapped hWrapped)]

theorem methods_congr {symbols : SymbolTable} {before after : List MethodDecl} {m m' : MethodDecl}
    (h : method symbols m' = method symbols m) :
    methods symbols (before ++ m' :: after) = methods symbols (before ++ m :: after) := by
  induction before with
  | nil => rw [List.nil_append, List.nil_append, methods, methods, h]
  | cons first rest ih => rw [List.cons_append, List.cons_append, methods, methods, ih]

/-- Whatever symbols the class is lowered with, parentheses make no difference. Symbols come from
declarations, which have no expressions in them. -/
theorem classUnit_wrapped {p q : Program} (h : p.Wrapped q) (defaultConstructor : Bool)
    (symbols : SymbolTable) :
    classUnit defaultConstructor q symbols = classUnit defaultConstructor p symbols := by
  cases h with
  | method before after hMethods hWrapped =>
      unfold classUnit
      rw [hMethods, methods_congr (method_wrapped hWrapped symbols)]

theorem symbols_wrapped {p q : Program} (h : p.Wrapped q) :
    SymbolTable.ofProgram q = SymbolTable.ofProgram p := by
  cases h with
  | method before after hMethods hWrapped =>
      cases hWrapped with
      | statement =>
          unfold SymbolTable.ofProgram
          rw [hMethods, List.map_append, List.map_append]
          rfl

theorem ofProgram_wrapped {p q : Program} (h : p.Wrapped q) (defaultConstructor : Bool) :
    ofProgram defaultConstructor q = ofProgram defaultConstructor p := by
  rw [ofProgram, ofProgram, symbols_wrapped h, classUnit_wrapped h]

/-- Parentheses are transparent. Put around any expressions of a program, in any number, they change
neither the code of the program, wherever its names are resolved, nor its assembly, nor its failure. -/
theorem parentheses_transparent {p q : Program} (h : Relation.ReflTransGen Program.Wrapped p q)
    (defaultConstructor : Bool) :
    (∀ symbols, classUnit defaultConstructor q symbols = classUnit defaultConstructor p symbols) ∧
      ofProgram defaultConstructor q = ofProgram defaultConstructor p ∧
      ∀ options, (ofProgram defaultConstructor q).bind (Assembly.classText options) =
        (ofProgram defaultConstructor p).bind (Assembly.classText options) := by
  have hUnits : (∀ symbols, classUnit defaultConstructor q symbols =
      classUnit defaultConstructor p symbols) ∧
      ofProgram defaultConstructor q = ofProgram defaultConstructor p := by
    induction h with
    | refl => exact ⟨fun _ => rfl, rfl⟩
    | tail _ hStep ih =>
        exact ⟨fun symbols => (classUnit_wrapped hStep defaultConstructor symbols).trans (ih.1 symbols),
          (ofProgram_wrapped hStep defaultConstructor).trans ih.2⟩
  exact ⟨hUnits.1, hUnits.2, fun options => by rw [hUnits.2]⟩

namespace Totals

/-- `static int of(int... xs)`. -/
def of : MethodDecl :=
  ⟨"of", false, true, .int, [.varargs "xs"], [], [.ret (some (.intLiteral 0))]⟩

/-- `static int all(int[] xs)`, which calls the other method. -/
def all (receiver argument : Expr) : MethodDecl :=
  ⟨"all", false, true, .int, [.plain "xs" .intArray], [],
    [.ret (some (.call receiver "of" [argument] .int))]⟩

/-- A class with both methods, the second one calling the first. -/
def program (receiver argument : Expr) : Program := ⟨[], "Totals", none, [], [of, all receiver argument]⟩

theorem wrapped_receiver {receiver receiver' : Expr} (h : receiver.Wrapped receiver')
    (argument : Expr) : (program receiver argument).Wrapped (program receiver' argument) :=
  .method [of] [] rfl (.statement [] [] rfl (.ret (.receiver "of" [argument] .int h)))

theorem wrapped_argument (receiver : Expr) {argument argument' : Expr}
    (h : argument.Wrapped argument') :
    (program receiver argument).Wrapped (program receiver argument') :=
  .method [of] [] rfl (.statement [] [] rfl (.ret (.argument receiver "of" [] [] .int h)))

def receiver : Expr := .ident "Totals" (.object "Totals")

def argument : Expr := .ident "xs" .intArray

end Totals

/-- `(Totals).of(((xs)))` passes the array on in a static call, as `Totals.of(xs)` does. -/
theorem totals_parentheses_transparent :
    Relation.ReflTransGen Program.Wrapped (Totals.program Totals.receiver Totals.argument)
        (Totals.program (.paren Totals.receiver) (.paren (.paren Totals.argument))) ∧
      ofProgram true (Totals.program (.paren Totals.receiver) (.paren (.paren Totals.argument))) =
        ofProgram true (Totals.program Totals.receiver Totals.argument) := by
  have hWrapped : Relation.ReflTransGen Program.Wrapped (Totals.program Totals.receiver Totals.argument)
      (Totals.program (.paren Totals.receiver) (.paren (.paren Totals.argument))) := by
    have hReceiver := Totals.wrapped_receiver (.here Totals.receiver) Totals.argument
    have hInner := Totals.wrapped_argument (.paren Totals.receiver) (.here Totals.argument)
    have hOuter := Totals.wrapped_argument (.paren Totals.receiver) (.here (.paren Totals.argument))
    exact ((Relation.ReflTransGen.single hReceiver).tail hInner).tail hOuter
  exact ⟨hWrapped, (parentheses_transparent hWrapped true).2.1⟩

end MiniJava.Lowering
