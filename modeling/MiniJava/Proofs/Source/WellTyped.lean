import MiniJava.Proofs.Source.Names

/-!
Well-typed programs. Every name stands for something, every type written on an expression is the
declared one, and operands, conditions, receivers, arguments and results are of the types that
their places need. Class types are not told apart, since a program does not say which class extends
which.
-/

namespace MiniJava.Source

open Lowering (Scope asksLength isOneArray)

namespace Ty

/-- A class type: neither an array nor one of the built-in types that are no classes. Strings are among
the class types. -/
def isObject (ty : Ty) : Bool :=
  !ty.isArray && ty.name ≠ "int" && ty.name ≠ "boolean" && ty.name ≠ "void"

/-- Whether a value of the type may stand where `expected` is asked for. Any class fits any other, as
nothing is known of how classes extend each other. -/
def fits (ty expected : Ty) : Bool := ty = expected || (ty.isObject && expected.isObject)

/-- A type that a method may have as its result: void is one, an array of void is none. No array of void
could ever be made. -/
def isResult (ty : Ty) : Bool := ty = .void || !ty.isVoid

end Ty

/-- The type that both operands have. No operator takes operands of two types. -/
def BinaryOp.operandType : BinaryOp → Ty
  | .and => .boolean
  | _ => .int

/-- Whether the arguments of a call are as many as the parameters and fit them one by one. Trailing
arguments for a parameter that collects them are integers, or one array. -/
def argumentsFit (signature : Signature) (arguments : List Expr) : Bool :=
  let types := signature.parameters.map (·.ty)
  if signature.isVarargs then
    let n := types.length - 1
    n ≤ arguments.length && ((arguments.take n).zip types).all (fun (e, ty) => e.ty.fits ty) &&
      if isOneArray (arguments.drop n) then (arguments.drop n).all (·.ty = .intArray)
      else (arguments.drop n).all (·.ty = .int)
  else
    arguments.length = types.length && (arguments.zip types).all fun (e, ty) => e.ty.fits ty

/-- Whether a call of a method of the class itself, if it declares the method, is as declared. A method
that it does not declare is taken to be inherited, and its call may be of any type. -/
def fitsDeclared (scope : Scope) (method : String) (arguments : List Expr) (ty : Ty) : Bool :=
  match scope.symbols.method? method with
  | some signature => ty = signature.returnType && argumentsFit signature arguments
  | none => true

section

variable (scope : Scope)

mutual

/-- Whether an expression that is no class name is well-typed. It may still be a void call, which its use
has to exclude. -/
def Expr.wellTyped : Expr → Bool
  | .intLiteral _ | .boolLiteral _ => true
  | .ident name ty =>
      match meaning scope name with
      | .variable declared => ty = declared
      | .field declared => ty = declared && !scope.method.isStatic
      | .className | .nothing => false
  | .self ty => ty = .object scope.symbols.className && !scope.method.isStatic
  | .paren inner => inner.wellTyped
  | .index base place ty =>
      base.wellTyped && place.wellTyped && base.ty.isArray && place.ty = .int &&
        ty = base.ty.element
  | .newArray size => size.wellTyped && size.ty = .int
  | .newObject className => (Ty.object className).isObject
  | .arrayLiteral elements => wellTypedAll elements && elements.all (·.ty = .int)
  | .not operand => operand.wellTyped && operand.ty = .boolean
  | .binary op left right ty =>
      left.wellTyped && right.wellTyped && left.ty = op.operandType &&
        right.ty = op.operandType && ty = op.resultType
  | .call receiver method arguments ty =>
      wellTypedAll arguments && arguments.all (!·.ty.isVoid) && ty.isResult &&
        if asksLength receiver method arguments then receiver.wellTyped && ty = .int
        else
          match receiverClass? scope receiver with
          | some className =>
              className ≠ scope.symbols.className || fitsDeclared scope method arguments ty
          | none =>
              receiver.wellTyped && receiver.ty.isObject &&
                (receiver.ty ≠ .object scope.symbols.className ||
                  fitsDeclared scope method arguments ty)
termination_by structural e => e

/-- Whether all expressions of a list are well-typed, each by itself. -/
def wellTypedAll : List Expr → Bool
  | [] => true
  | e :: rest => e.wellTyped && wellTypedAll rest
termination_by structural es => es

end

/-- Whether an expression can be assigned to: a variable, a field or an item of an array, in any
parentheses. -/
def Expr.isTarget (e : Expr) : Bool :=
  match e.bare with
  | .ident _ _ | .index _ _ _ => true
  | _ => false

mutual

/-- Whether a statement is well-typed: conditions are boolean, what is assigned fits, and what is
returned fits the result of the method. -/
def Stmt.wellTyped : Stmt → Bool
  | .block statements => wellTypedStmts statements
  | .cond test thenBranch elseBranch =>
      test.wellTyped scope && test.ty = .boolean && thenBranch.wellTyped &&
        wellTypedOptional elseBranch
  | .loop test body => test.wellTyped scope && test.ty = .boolean && body.wellTyped
  | .assign target value =>
      target.isTarget && target.wellTyped scope && value.wellTyped scope && value.ty.fits target.ty
  | .ret none => scope.method.returnType = .void
  | .ret (some e) =>
      e.wellTyped scope && scope.method.returnType ≠ .void && e.ty.fits scope.method.returnType
  | .eval e => e.wellTyped scope
termination_by structural s => s

/-- A missing branch is well-typed, and one that is there if its statement is. -/
def wellTypedOptional : Option Stmt → Bool
  | none => true
  | some s => s.wellTyped
termination_by structural o => o

/-- Whether all statements of a list are well-typed, each by itself. -/
def wellTypedStmts : List Stmt → Bool
  | [] => true
  | s :: rest => s.wellTyped && wellTypedStmts rest
termination_by structural ss => ss

end

end

section

variable (scope : Scope)

/-- Whether an expression is a variable of the method or a literal, in any parentheses. Evaluating it
does nothing and cannot fail. -/
def Expr.isDirect (e : Expr) : Bool :=
  match e.bare with
  | .intLiteral _ | .boolLiteral _ => true
  | .ident name _ => (scope.method.lookup? name).isSome
  | _ => false

mutual

/-- Whether the array and the place of every item that is assigned to are variables of the method or
literals. -/
def Stmt.hasDirectTargets : Stmt → Bool
  | .block statements => haveDirectTargets statements
  | .cond _ thenBranch elseBranch =>
      thenBranch.hasDirectTargets && optionalHasDirectTargets elseBranch
  | .loop _ body => body.hasDirectTargets
  | .assign target _ =>
      match target.bare with
      | .index base place _ => base.isDirect scope && place.isDirect scope
      | _ => true
  | .ret _ | .eval _ => true
termination_by structural s => s

def optionalHasDirectTargets : Option Stmt → Bool
  | none => true
  | some s => s.hasDirectTargets
termination_by structural o => o

/-- Whether all statements of a list have direct targets. -/
def haveDirectTargets : List Stmt → Bool
  | [] => true
  | s :: rest => s.hasDirectTargets && haveDirectTargets rest
termination_by structural ss => ss

end

end

/-- Whether a variable or field can hold values. Whether it is marked as collecting arguments does not
matter here, since that mark is read of the last parameter of a method only. -/
def Declaration.wellTyped (d : Declaration) : Bool := !d.ty.isVoid

namespace MethodDecl

/-- The parameters and the local variables of a method, in this order. These are the variables that have
values when it starts. -/
def declarations (m : MethodDecl) : List Declaration := m.parameters ++ m.locals

/-- Whether a last parameter that collects arguments is an array of integers. A symbol that is marked so
is documented to have this type, and nothing that reads programs checks it. -/
def collectsIntegers (m : MethodDecl) : Bool :=
  m.parameters.getLast?.all fun d => !d.isVarargs || d.ty = .intArray

/-- The place of a method of a program, as its code sees it: with the symbols of the whole program, and
with its own signature. -/
def scope (program : Program) (m : MethodDecl) : Scope := ⟨.ofProgram program, .ofMethod m⟩

/-- A method is well-typed if no two of its declarations share a name, each of them can hold values, and
its body is well-typed where it stands. This is the list of conditions under which the program means
anything. -/
structure WellTyped (program : Program) (m : MethodDecl) : Prop where
  distinct : (m.declarations.map (·.name)).Nodup
  declared : ∀ d ∈ m.declarations, d.wellTyped = true
  collects : m.collectsIntegers = true
  result : m.returnType.isResult = true
  body : wellTypedStmts (m.scope program) m.body = true

instance (program : Program) (m : MethodDecl) : Decidable (m.WellTyped program) :=
  decidable_of_iff
    ((m.declarations.map (·.name)).Nodup ∧ (∀ d ∈ m.declarations, d.wellTyped = true) ∧
      m.collectsIntegers = true ∧ m.returnType.isResult = true ∧
      wellTypedStmts (m.scope program) m.body = true)
    ⟨fun ⟨h₁, h₂, h₃, h₄, h₅⟩ => ⟨h₁, h₂, h₃, h₄, h₅⟩,
      fun ⟨h₁, h₂, h₃, h₄, h₅⟩ => ⟨h₁, h₂, h₃, h₄, h₅⟩⟩

end MethodDecl

namespace Program

/-- A program is well-typed if its class has a name of its own, no two methods share a name, and its
fields and methods are well-typed. -/
structure WellTyped (program : Program) : Prop where
  className : (Ty.object program.decl.name).isObject = true
  fields : ∀ d ∈ program.decl.fields, d.wellTyped = true
  distinct : (program.decl.methods.map (·.name)).Nodup
  methods : ∀ m ∈ program.decl.methods, m.WellTyped program

instance (program : Program) : Decidable program.WellTyped :=
  decidable_of_iff
    ((Ty.object program.decl.name).isObject = true ∧
      (∀ d ∈ program.decl.fields, d.wellTyped = true) ∧
      (program.decl.methods.map (·.name)).Nodup ∧
      ∀ m ∈ program.decl.methods, m.WellTyped program)
    ⟨fun ⟨h₁, h₂, h₃, h₄⟩ => ⟨h₁, h₂, h₃, h₄⟩, fun ⟨h₁, h₂, h₃, h₄⟩ => ⟨h₁, h₂, h₃, h₄⟩⟩

end Program

end MiniJava.Source
