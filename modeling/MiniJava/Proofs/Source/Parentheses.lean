import MiniJava.Source.Syntax

/-!
Programs that differ in parentheses. One step puts one pair of parentheses around one expression,
which may stand anywhere in the body of a method.
-/

namespace MiniJava.Source

/-- The second expression is the first with one pair of parentheses more, around itself or around one of
its parts. -/
inductive Expr.Wrapped : Expr → Expr → Prop where
  | here (e : Expr) : Wrapped e (.paren e)
  | indexBase {base base' : Expr} (place : Expr) (ty : Ty) (h : Wrapped base base') :
      Wrapped (.index base place ty) (.index base' place ty)
  | indexPlace (base : Expr) {place place' : Expr} (ty : Ty) (h : Wrapped place place') :
      Wrapped (.index base place ty) (.index base place' ty)
  | paren {inner inner' : Expr} (h : Wrapped inner inner') : Wrapped (.paren inner) (.paren inner')
  | not {operand operand' : Expr} (h : Wrapped operand operand') :
      Wrapped (.not operand) (.not operand')
  | newArray {size size' : Expr} (h : Wrapped size size') : Wrapped (.newArray size) (.newArray size')
  | arrayLiteral (before : List Expr) {e e' : Expr} (after : List Expr) (h : Wrapped e e') :
      Wrapped (.arrayLiteral (before ++ e :: after)) (.arrayLiteral (before ++ e' :: after))
  | binaryLeft (op : BinaryOp) {left left' : Expr} (right : Expr) (ty : Ty) (h : Wrapped left left') :
      Wrapped (.binary op left right ty) (.binary op left' right ty)
  | binaryRight (op : BinaryOp) (left : Expr) {right right' : Expr} (ty : Ty)
      (h : Wrapped right right') : Wrapped (.binary op left right ty) (.binary op left right' ty)
  | receiver {receiver receiver' : Expr} (method : String) (arguments : List Expr) (ty : Ty)
      (h : Wrapped receiver receiver') :
      Wrapped (.call receiver method arguments ty) (.call receiver' method arguments ty)
  | argument (receiver : Expr) (method : String) (before : List Expr) {e e' : Expr}
      (after : List Expr) (ty : Ty) (h : Wrapped e e') :
      Wrapped (.call receiver method (before ++ e :: after) ty)
        (.call receiver method (before ++ e' :: after) ty)

/-- The second statement is the first with one pair of parentheses more, around an expression that may
stand anywhere in it. -/
inductive Stmt.Wrapped : Stmt → Stmt → Prop where
  | block (before : List Stmt) {s s' : Stmt} (after : List Stmt) (h : Wrapped s s') :
      Wrapped (.block (before ++ s :: after)) (.block (before ++ s' :: after))
  | condTest {test test' : Expr} (thenBranch : Stmt) (elseBranch : Option Stmt)
      (h : test.Wrapped test') :
      Wrapped (.cond test thenBranch elseBranch) (.cond test' thenBranch elseBranch)
  | thenBranch (test : Expr) {s s' : Stmt} (elseBranch : Option Stmt) (h : Wrapped s s') :
      Wrapped (.cond test s elseBranch) (.cond test s' elseBranch)
  | elseBranch (test : Expr) (thenBranch : Stmt) {s s' : Stmt} (h : Wrapped s s') :
      Wrapped (.cond test thenBranch (some s)) (.cond test thenBranch (some s'))
  | loopTest {test test' : Expr} (body : Stmt) (h : test.Wrapped test') :
      Wrapped (.loop test body) (.loop test' body)
  | loopBody (test : Expr) {body body' : Stmt} (h : Wrapped body body') :
      Wrapped (.loop test body) (.loop test body')
  | target {target target' : Expr} (value : Expr) (h : target.Wrapped target') :
      Wrapped (.assign target value) (.assign target' value)
  | value (target : Expr) {value value' : Expr} (h : value.Wrapped value') :
      Wrapped (.assign target value) (.assign target value')
  | ret {e e' : Expr} (h : e.Wrapped e') : Wrapped (.ret (some e)) (.ret (some e'))
  | eval {e e' : Expr} (h : e.Wrapped e') : Wrapped (.eval e) (.eval e')

/-- One pair of parentheses more in one of the statements of a method. The other statements and all
declarations are the same. -/
inductive MethodDecl.Wrapped : MethodDecl → MethodDecl → Prop where
  | statement {m : MethodDecl} (before : List Stmt) {s s' : Stmt} (after : List Stmt)
      (hBody : m.body = before ++ s :: after) (h : s.Wrapped s') :
      Wrapped m { m with body := before ++ s' :: after }

/-- One pair of parentheses more in one of the methods of a program. Any number of pairs is added by one
after another. -/
inductive Program.Wrapped : Program → Program → Prop where
  | method {p : Program} (before : List MethodDecl) {m m' : MethodDecl} (after : List MethodDecl)
      (hMethods : p.decl.methods = before ++ m :: after) (h : m.Wrapped m') :
      Wrapped p { p with decl := { p.decl with methods := before ++ m' :: after } }

/-- Parentheses leave the type of the whole expression as it is, wherever they are put. -/
theorem Expr.Wrapped.ty_eq {e e' : Expr} (h : e.Wrapped e') : e'.ty = e.ty := by
  induction h with
  | paren _ ih => exact ih
  | _ => rfl

end MiniJava.Source
