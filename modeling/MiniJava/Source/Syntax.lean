import MiniJava.Source.Type

/-!
Programs whose expressions carry their types: one class, its imports, its methods with their
bodies. Types written on expressions are taken as they are and never recomputed.
-/

namespace MiniJava.Source

/-- The operators of the source, of which the last evaluates its second operand only if the first holds.
There is no disjunction and no test for equality. -/
inductive BinaryOp where
  | add
  | sub
  | mul
  | div
  | less
  | greater
  | lessEqual
  | greaterEqual
  | and
deriving DecidableEq, Repr, Inhabited

namespace BinaryOp

/-- All operators, in the order in which a symbol is looked up among them. No two have the same symbol,
so the order is of no account. -/
def all : List BinaryOp := [.add, .sub, .mul, .div, .less, .greater, .lessEqual, .greaterEqual, .and]

def text : BinaryOp → String
  | .add => "+"
  | .sub => "-"
  | .mul => "*"
  | .div => "/"
  | .less => "<"
  | .greater => ">"
  | .lessEqual => "<="
  | .greaterEqual => ">="
  | .and => "&&"

/-- The type of the result: integers for arithmetic, booleans otherwise. It does not depend on the types
of the operands. -/
def resultType : BinaryOp → Ty
  | .add | .sub | .mul | .div => .int
  | _ => .boolean

end BinaryOp

/-- Expressions. Those whose type is not fixed by their form carry it; it is what a type checker found,
and nothing here checks it again. -/
inductive Expr where
  | intLiteral (value : Int32)
  | boolLiteral (value : Bool)
  | ident (name : String) (ty : Ty)
  | self (ty : Ty)
  | index (base place : Expr) (ty : Ty)
  | paren (inner : Expr)
  | not (operand : Expr)
  | newArray (size : Expr)
  | newObject (className : String)
  | arrayLiteral (elements : List Expr)
  | binary (op : BinaryOp) (left right : Expr) (ty : Ty)
  | call (receiver : Expr) (method : String) (arguments : List Expr) (ty : Ty)
deriving Inhabited

namespace Expr

/-- The type of an expression: the one that it carries, or the one that its form fixes. -/
def ty : Expr → Ty
  | .intLiteral _ => .int
  | .boolLiteral _ | .not _ => .boolean
  | .newArray _ | .arrayLiteral _ => .intArray
  | .newObject className => .object className
  | .paren inner => inner.ty
  | .ident _ ty | .self ty | .index _ _ ty | .binary _ _ _ ty | .call _ _ _ ty => ty

/-- What reports call this form of expression. The names are those under which a program is written
down. -/
def kindName : Expr → String
  | .intLiteral _ => "IntLiteral"
  | .boolLiteral _ => "BoolLiteral"
  | .ident _ _ => "Identifier"
  | .self _ => "This"
  | .index _ _ _ => "ArrayAccess"
  | .paren _ => "Parentheses"
  | .not _ => "Not"
  | .newArray _ => "NewArray"
  | .newObject _ => "NewObject"
  | .arrayLiteral _ => "ArrayInit"
  | .binary _ _ _ _ => "Binary"
  | .call _ _ _ _ => "MethodCall"

/-- The expression inside all parentheses around it. Only outer parentheses are taken away; those inside
its parts stay. -/
def bare : Expr → Expr
  | .paren inner => inner.bare
  | e => e

/-- A binary operation with the type that its operator gives, as a type checker would write it. -/
def ofBinary (op : BinaryOp) (left right : Expr) : Expr := .binary op left right op.resultType

/-- An indexing with the type that the array's type gives, as a type checker would write it. -/
def ofIndex (base place : Expr) : Expr := .index base place base.ty.element

end Expr

/-- Statements. The value of a return and the second branch of a conditional may be missing. Local
variables are declared by the method and by no statement. -/
inductive Stmt where
  | block (statements : List Stmt)
  | cond (condition : Expr) (thenBranch : Stmt) (elseBranch : Option Stmt)
  | loop (condition : Expr) (body : Stmt)
  | assign (target value : Expr)
  | ret (value : Option Expr)
  | eval (expr : Expr)
deriving Inhabited

/-- A method as it is declared: its parameters and local variables with their types, and its body. The
variables are all declared in front, and their scope is the whole body. -/
structure MethodDecl where
  name : String
  isPublic : Bool
  isStatic : Bool
  returnType : Ty
  parameters : List Declaration
  locals : List Declaration
  body : List Stmt
deriving Inhabited

/-- A class. It names its superclass, if it has one, as the program does, and so perhaps by an import. -/
structure ClassDecl where
  name : String
  superClass : Option String
  fields : List Declaration
  methods : List MethodDecl
deriving Inhabited

/-- A class and the dotted names that it imports, each as its list of segments. A program is one class;
what it imports is known by name only. -/
structure Program where
  imports : List (List String)
  decl : ClassDecl
deriving Inhabited

end MiniJava.Source
