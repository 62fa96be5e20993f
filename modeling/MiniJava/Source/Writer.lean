import MiniJava.Json.Basic
import MiniJava.Source.Symbols

/-!
Writing a program as JSON, with every field spelled out.
-/

namespace MiniJava.Source

def Ty.toJson (ty : Ty) : Json :=
  .ofFields [("name", .ofString ty.name), ("is_array", .bool ty.isArray)]

def Declaration.toJson (d : Declaration) : Json :=
  .ofFields [("name", .ofString d.name), ("type", d.ty.toJson), ("is_varargs", .bool d.isVarargs)]

/-- A variant: its kind, then its fields. It is written as an object in which the kind comes first, one
of the forms that a reader takes. -/
def variant (kind : String) (fields : List (String × Json)) : Json :=
  .ofFields (("kind", .ofString kind) :: fields)

mutual

/-- An expression as a variant. Each kind writes the fields that the reader asks of it, under the same
names. -/
def Expr.toJson : Expr → Json
  | .intLiteral value => variant "IntLiteral" [("value", .ofInt value.toInt)]
  | .boolLiteral value => variant "BoolLiteral" [("value", .bool value)]
  | .ident name ty => variant "Identifier" [("name", .ofString name), ("expr_type", ty.toJson)]
  | .self ty => variant "This" [("expr_type", ty.toJson)]
  | .index base place ty =>
      variant "ArrayAccess" [("array", base.toJson), ("index", place.toJson), ("expr_type", ty.toJson)]
  | .paren inner => variant "Parentheses" [("inner", inner.toJson)]
  | .not operand => variant "Not" [("operand", operand.toJson)]
  | .newArray size => variant "NewArray" [("size", size.toJson)]
  | .newObject className => variant "NewObject" [("class_name", .ofString className)]
  | .arrayLiteral elements => variant "ArrayInit" [("elements", .array (Expr.toJsons elements))]
  | .binary op left right ty =>
      variant "Binary" [("op", .ofString op.text), ("left", left.toJson), ("right", right.toJson),
        ("expr_type", ty.toJson)]
  | .call receiver method arguments ty =>
      variant "MethodCall" [("receiver", receiver.toJson), ("method", .ofString method),
        ("arguments", .array (Expr.toJsons arguments)), ("expr_type", ty.toJson)]
termination_by structural e => e

/-- The items of an array that holds expressions. This is a function of its own so that the recursion
over expressions stays structural. -/
def Expr.toJsons : List Expr → List Json
  | [] => []
  | e :: rest => e.toJson :: Expr.toJsons rest
termination_by structural es => es

end

mutual

/-- A statement as a variant. What may be missing is written as null, so that every statement of a kind
has the same members. -/
def Stmt.toJson : Stmt → Json
  | .block statements => variant "Block" [("statements", .array (Stmt.toJsons statements))]
  | .cond condition thenBranch elseBranch =>
      variant "If" [("condition", condition.toJson), ("then_stmt", thenBranch.toJson),
        ("else_stmt", Stmt.optionalToJson elseBranch)]
  | .loop condition body => variant "While" [("condition", condition.toJson), ("body", body.toJson)]
  | .assign target value => variant "Assign" [("target", target.toJson), ("value", value.toJson)]
  | .ret value => variant "Return" [("value", .ofOption Expr.toJson value)]
  | .eval expr => variant "Expression" [("expr", expr.toJson)]
termination_by structural s => s

def Stmt.optionalToJson : Option Stmt → Json
  | none => .null
  | some s => s.toJson
termination_by structural o => o

def Stmt.toJsons : List Stmt → List Json
  | [] => []
  | s :: rest => s.toJson :: Stmt.toJsons rest
termination_by structural ss => ss

end

/-- A method as a record in which no default is left out, so that what is read from it does not depend on
the defaults. -/
def MethodDecl.toJson (m : MethodDecl) : Json :=
  .ofFields [
    ("name", .ofString m.name),
    ("is_public", .bool m.isPublic),
    ("is_static", .bool m.isStatic),
    ("return_type", m.returnType.toJson),
    ("parameters", .ofList Declaration.toJson m.parameters),
    ("locals", .ofList Declaration.toJson m.locals),
    ("body", .array (Stmt.toJsons m.body))]

def ClassDecl.toJson (c : ClassDecl) : Json :=
  .ofFields [
    ("name", .ofString c.name),
    ("super_class", .ofOption .ofString c.superClass),
    ("fields", .ofList Declaration.toJson c.fields),
    ("methods", .ofList MethodDecl.toJson c.methods)]

/-- A program as a record: the imports by their segments, then the class. -/
def Program.toJson (p : Program) : Json :=
  .ofFields [("imports", .ofList (.ofList .ofString) p.imports), ("class", p.decl.toJson)]

/-- What is known of a method without its body, as a record with all of its fields. -/
def Signature.toJson (s : Signature) : Json :=
  .ofFields [
    ("name", .ofString s.name),
    ("return_type", s.returnType.toJson),
    ("parameters", .ofList Declaration.toJson s.parameters),
    ("locals", .ofList Declaration.toJson s.locals),
    ("is_static", .bool s.isStatic),
    ("is_public", .bool s.isPublic)]

/-- What a class declares, with its imports as dotted names. Nothing reads this form back; it is there to
be looked at. -/
def SymbolTable.toJson (t : SymbolTable) : Json :=
  .ofFields [
    ("class_name", .ofString t.className),
    ("super_class", .ofOption .ofString t.superClass),
    ("imports", .ofList .ofString t.imports),
    ("fields", .ofList Declaration.toJson t.fields),
    ("methods", .ofList Signature.toJson t.methods)]

end MiniJava.Source
