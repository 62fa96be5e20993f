import MiniJava.Proofs.Source.Names

/-!
The members of classes to which a phrase refers, in the order in which its code does: an object is
constructed after it is allocated, a call comes after its receiver and its arguments, and the test of
a loop comes twice. Only a call that is assigned to an item of an array waits for the array and the
place.
-/

namespace MiniJava.Source

open Lowering (Scope asksLength isOneArray)

/-- A reference to a class or to a member of one, as the program makes it. An object that is made refers
twice: to its class, and to its constructor. -/
inductive Reference where
  | new (className : String)
  | construct (className : String)
  | call (receiver : Expr) (method : String) (arguments : List Expr)
  | read (field : String)
  | write (field : String)
deriving Inhabited

/-- The call that the expression is, unless it asks for a length. It refers to its method last, after
everything in its receiver and its arguments. -/
def Expr.lastCall (e : Expr) : List Reference :=
  match e.bare with
  | .call receiver method arguments _ =>
      if asksLength receiver method arguments then [] else [.call receiver method arguments]
  | _ => []

section

variable (scope : Scope)

mutual

/-- The references before that of the call that the expression is. For an expression that is no call
these are all of them. -/
def Expr.earlier : Expr → List Reference
  | .intLiteral _ | .boolLiteral _ | .self _ => []
  | .ident name _ =>
      match meaning scope name with
      | .field _ => [.read name]
      | _ => []
  | .paren inner => inner.earlier
  | .index base place _ => base.earlier ++ base.lastCall ++ (place.earlier ++ place.lastCall)
  | .newArray size => size.earlier ++ size.lastCall
  | .newObject className => [.new className, .construct className]
  | .arrayLiteral elements => referencesAll elements
  | .not operand => operand.earlier ++ operand.lastCall
  | .binary _ left right _ => left.earlier ++ left.lastCall ++ (right.earlier ++ right.lastCall)
  | .call receiver method arguments _ =>
      receiver.earlier ++ receiver.lastCall ++
        if asksLength receiver method arguments then [] else referencesAll arguments
termination_by structural e => e

/-- The references of expressions, one after another, in the order in which their code runs. -/
def referencesAll : List Expr → List Reference
  | [] => []
  | e :: rest => e.earlier ++ e.lastCall ++ referencesAll rest
termination_by structural es => es

end

/-- All references of an expression. The last one is kept apart because it may be left over to an
assignment. -/
def Expr.references (e : Expr) : List Reference := e.earlier scope ++ e.lastCall

/-- The value comes before the target, but a call that an item is assigned comes after it. -/
def assignReferences (target value : Expr) : List Reference :=
  match target.bare with
  | .ident name _ =>
      match meaning scope name with
      | .field _ => value.references scope ++ [.write name]
      | _ => value.references scope
  | .index base place _ =>
      value.earlier scope ++ base.references scope ++ place.references scope ++ value.lastCall
  | _ => []

mutual

/-- The references of a statement, in the order in which its code makes them: the branch for false before
the one for true, and the test of a loop once more behind its body. -/
def Stmt.references : Stmt → List Reference
  | .block statements => stmtsReferences statements
  | .cond test thenBranch elseBranch =>
      test.references scope ++ (optionalReferences elseBranch ++ thenBranch.references)
  | .loop test body => test.references scope ++ (body.references ++ test.references scope)
  | .assign target value => assignReferences scope target value
  | .ret none => []
  | .ret (some value) => value.references scope
  | .eval e => e.references scope
termination_by structural s => s

/-- A missing branch refers to nothing. One that is there refers to what its statement refers to. -/
def optionalReferences : Option Stmt → List Reference
  | none => []
  | some s => s.references
termination_by structural o => o

/-- The references of statements, one after another, in the order in which their code stands. -/
def stmtsReferences : List Stmt → List Reference
  | [] => []
  | s :: rest => s.references ++ stmtsReferences rest
termination_by structural ss => ss

end

/-- The type with which what an expression names is declared; of any other expression, the type that
is written on it. -/
def Expr.declaredTy (e : Expr) : Ty :=
  match e.bare with
  | .ident name ty =>
      match meaning scope name with
      | .variable declared | .field declared => declared
      | .className | .nothing => ty
  | .self _ => .object scope.symbols.className
  | other => other.ty

/-- How many operands a call passes on. Those that are collected count as one, even if there are none of
them. -/
def passedArguments (receiver : Expr) (method : String) (arguments : List Expr) : Nat :=
  match leadingArguments? scope receiver method with
  | some n => if isOneArray (arguments.drop n) then arguments.length else min n arguments.length + 1
  | none => arguments.length

end

/-- The scope in which the names of a method are looked up: that of the first method of its name, as in
lowering. -/
def MethodDecl.namedScope (program : Program) (m : MethodDecl) : Scope :=
  ⟨.ofProgram program, ((SymbolTable.ofProgram program).method? m.name).getD (.ofMethod m)⟩

/-- The references of a method are those of its statements. Its declarations refer to classes by
descriptors only, which are not counted here. -/
def MethodDecl.references (program : Program) (m : MethodDecl) : List Reference :=
  stmtsReferences (m.namedScope program) m.body

end MiniJava.Source
