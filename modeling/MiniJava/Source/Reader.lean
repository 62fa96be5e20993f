import MiniJava.Error
import MiniJava.Json.Reader
import MiniJava.Json.Record
import MiniJava.Source.Syntax

/-!
Reading a program from JSON. Members that are not part of the format are passed over: outside
method bodies whatever they hold, inside a body only if it is legible and the body does not nest
too deep. All ways to be malformed are one error.
-/

namespace MiniJava.Source

open Json (Field Kind Str foldParts namesKind record? variantOfItems? variantOfMembers?)

/-- A type as a record of a name and a truth value. Any name will do: whether it names a type is not
asked while reading. -/
def Ty.ofJson? (j : Json) : Option Ty := do
  match ← record? [⟨"name", .required⟩, ⟨"is_array", .required⟩] j with
  | [some name, some isArray] => return ⟨← name.text?, ← isArray.bool?⟩
  | _ => none

/-- A declaration as a record. It collects no arguments unless it says so; that mark is the one field
that may be left out. -/
def Declaration.ofJson? (j : Json) : Option Declaration := do
  match ← record? [⟨"name", .required⟩, ⟨"type", .required⟩, ⟨"is_varargs", .defaulted⟩] j with
  | [some name, some ty, isVarargs] =>
      return ⟨← name.text?, ← Ty.ofJson? ty, ← (isVarargs.getD (.bool false)).bool?⟩
  | _ => none

/-- The operator that a value names: by its symbol, or by an object with the symbol as the only
member and nothing in it. -/
def BinaryOp.ofJson? : Json → Option BinaryOp
  | .string s => s.text?.bind symbol?
  | .object [(name, .null)] | .object [(name, .object [])] => name.text?.bind symbol?
  | _ => none
where
  symbol? (s : String) : Option BinaryOp := BinaryOp.all.find? (·.text = s)

namespace Expr

def required (names : List String) : List Field := names.map (⟨·, .required⟩)

/-- The kinds of expressions, each with the fields that it needs. The order matters, since a kind may be
given by its place. -/
def kinds : List Kind := [
  ⟨"IntLiteral", required ["value"]⟩,
  ⟨"BoolLiteral", required ["value"]⟩,
  ⟨"Identifier", required ["name", "expr_type"]⟩,
  ⟨"This", required ["expr_type"]⟩,
  ⟨"ArrayAccess", required ["array", "index", "expr_type"]⟩,
  ⟨"Parentheses", required ["inner"]⟩,
  ⟨"Not", required ["operand"]⟩,
  ⟨"NewArray", required ["size"]⟩,
  ⟨"NewObject", required ["class_name"]⟩,
  ⟨"ArrayInit", required ["elements"]⟩,
  ⟨"Binary", required ["op", "left", "right", "expr_type"]⟩,
  ⟨"MethodCall", required ["receiver", "method", "arguments", "expr_type"]⟩]

/-- A value with what it stands for as an expression and as a list of expressions. It may be both or
neither, and which of the two is wanted is known only further up. -/
structure Reading where
  json : Json
  expr : Option Expr
  exprs : Option (List Expr)
deriving Inhabited

/-- The expression of a kind with the given fields. The fields come in the order of the kind, and each is
asked for what the kind needs it to be. -/
def ofFields? : String → List (Option Reading) → Option Expr
  | "IntLiteral", [some value] => value.json.int32?.map .intLiteral
  | "BoolLiteral", [some value] => value.json.bool?.map .boolLiteral
  | "Identifier", [some name, some ty] => return .ident (← name.json.text?) (← Ty.ofJson? ty.json)
  | "This", [some ty] => (Ty.ofJson? ty.json).map .self
  | "ArrayAccess", [some base, some place, some ty] =>
      return .index (← base.expr) (← place.expr) (← Ty.ofJson? ty.json)
  | "Parentheses", [some inner] => inner.expr.map .paren
  | "Not", [some operand] => operand.expr.map .not
  | "NewArray", [some size] => size.expr.map .newArray
  | "NewObject", [some className] => className.json.text?.map .newObject
  | "ArrayInit", [some elements] => elements.exprs.map .arrayLiteral
  | "Binary", [some op, some left, some right, some ty] =>
      return .binary (← BinaryOp.ofJson? op.json) (← left.expr) (← right.expr) (← Ty.ofJson? ty.json)
  | "MethodCall", [some receiver, some method, some arguments, some ty] =>
      return .call (← receiver.expr) (← method.json.text?) (← arguments.exprs) (← Ty.ofJson? ty.json)
  | _, _ => none

/-- An array may be an expression, which then begins with its kind, or a list of expressions. -/
def Reading.ofItems (json : Json) (items : List Reading) : Reading where
  json := json
  expr := (variantOfItems? kinds Reading.json items).bind fun (kind, fields) => ofFields? kind fields
  exprs := items.mapM Reading.expr

/-- An object may be an expression and is no list. Its members are there with what they stand for
already. -/
def Reading.ofMembers (json : Json) (members : List (Str × Reading)) : Reading where
  json := json
  expr := (variantOfMembers? kinds Reading.json members).bind fun (kind, fields) =>
    ofFields? kind fields
  exprs := none

/-- What a value stands for, found from the parts upwards, so that parts are read once however deep they
lie. -/
def reading : Json → Reading := foldParts (⟨·, none, none⟩) Reading.ofItems Reading.ofMembers

/-- The expression that a value stands for. It is the reading of the value itself, once those of its
parts are known. -/
def ofJson? (j : Json) : Option Expr := (reading j).expr

end Expr

namespace Stmt

/-- The kinds of statements. What a conditional and a return may leave out may also be `null`. -/
def kinds : List Kind := [
  ⟨"Block", [⟨"statements", .required⟩]⟩,
  ⟨"If", [⟨"condition", .required⟩, ⟨"then_stmt", .required⟩, ⟨"else_stmt", .nullable⟩]⟩,
  ⟨"While", [⟨"condition", .required⟩, ⟨"body", .required⟩]⟩,
  ⟨"Assign", [⟨"target", .required⟩, ⟨"value", .required⟩]⟩,
  ⟨"Return", [⟨"value", .nullable⟩]⟩,
  ⟨"Expression", [⟨"expr", .required⟩]⟩]

/-- A value with what it stands for as a statement and as a list of statements, as for expressions. -/
structure Reading where
  json : Json
  stmt : Option Stmt
  stmts : Option (List Stmt)
deriving Inhabited

/-- The statement in a place that may be missing or `null`. A value that is there and stands for no
statement is refused. -/
def Reading.optional? : Option Reading → Option (Option Stmt)
  | none | some { json := .null, .. } => some none
  | some reading => reading.stmt.map some

/-- The statement of a kind with the given fields. The expressions in it are read from the values
themselves. -/
def ofFields? : String → List (Option Reading) → Option Stmt
  | "Block", [some statements] => statements.stmts.map .block
  | "If", [some condition, some thenBranch, elseBranch] =>
      return .cond (← Expr.ofJson? condition.json) (← thenBranch.stmt)
        (← Reading.optional? elseBranch)
  | "While", [some condition, some body] =>
      return .loop (← Expr.ofJson? condition.json) (← body.stmt)
  | "Assign", [some target, some value] =>
      return .assign (← Expr.ofJson? target.json) (← Expr.ofJson? value.json)
  | "Return", [none] => some (.ret none)
  | "Return", [some value] => (value.json.nullable? Expr.ofJson?).map .ret
  | "Expression", [some expr] => (Expr.ofJson? expr.json).map .eval
  | _, _ => none

/-- An array may be a statement, which then begins with its kind, or a list of statements. -/
def Reading.ofItems (json : Json) (items : List Reading) : Reading where
  json := json
  stmt := (variantOfItems? kinds Reading.json items).bind fun (kind, fields) => ofFields? kind fields
  stmts := items.mapM Reading.stmt

/-- An object may be a statement and is no list. A list of statements is written as an array only. -/
def Reading.ofMembers (json : Json) (members : List (Str × Reading)) : Reading where
  json := json
  stmt := (variantOfMembers? kinds Reading.json members).bind fun (kind, fields) =>
    ofFields? kind fields
  stmts := none

/-- What a value stands for, found from the parts upwards as for expressions. -/
def reading : Json → Reading := foldParts (⟨·, none, none⟩) Reading.ofItems Reading.ofMembers

/-- The statement that a value stands for. -/
def ofJson? (j : Json) : Option Stmt := (reading j).stmt

/-- How deep the arrays and objects of a program may nest. The limit is that of the reader and says
nothing about programs. -/
def nestingLimit : Nat := 127

/-- The arrays and objects around a statement of a method body: the program, its class, the list
of methods, the method and its body. -/
def nestingAround : Nat := 5

/-- A statement that stands directly in a method body. Unlike the statements inside it, it must
give its kind by name. -/
def ofBody? (j : Json) : Option Stmt :=
  if j.nestsWithin (nestingLimit - nestingAround) && j.legible && namesKind j then ofJson? j
  else none

end Stmt

/-- A method as a record. It is public, an instance method and without local variables unless it says
otherwise. -/
def MethodDecl.ofJson? (j : Json) : Option MethodDecl := do
  let fields ← record? [⟨"name", .required⟩, ⟨"is_public", .defaulted⟩, ⟨"is_static", .defaulted⟩,
    ⟨"return_type", .required⟩, ⟨"parameters", .required⟩, ⟨"locals", .defaulted⟩,
    ⟨"body", .required⟩] j
  match fields with
  | [some name, isPublic, isStatic, some returnType, some parameters, locals, some body] =>
      return {
        name := ← name.text?
        isPublic := ← (isPublic.getD (.bool true)).bool?
        isStatic := ← (isStatic.getD (.bool false)).bool?
        returnType := ← Ty.ofJson? returnType
        parameters := ← parameters.list? Declaration.ofJson?
        locals := ← (locals.getD (.array [])).list? Declaration.ofJson?
        body := ← body.list? Stmt.ofBody? }
  | _ => none

/-- A class as a record. It has no superclass and no fields unless it says otherwise, while its methods
must be there, if only as an empty list. -/
def ClassDecl.ofJson? (j : Json) : Option ClassDecl := do
  let fields ← record? [⟨"name", .required⟩, ⟨"super_class", .defaulted⟩, ⟨"fields", .defaulted⟩,
    ⟨"methods", .required⟩] j
  match fields with
  | [some name, superClass, fields, some methods] =>
      return {
        name := ← name.text?
        superClass := ← (superClass.getD .null).nullable? Json.text?
        fields := ← (fields.getD (.array [])).list? Declaration.ofJson?
        methods := ← methods.list? MethodDecl.ofJson? }
  | _ => none

namespace Program

/-- A program as a record of its imports, if it has any, and its class. Each import is a list of
segments, which may not hold anything but texts. -/
def ofJson? (j : Json) : Option Program := do
  match ← record? [⟨"imports", .defaulted⟩, ⟨"class", .required⟩] j with
  | [imports, some decl] =>
      return {
        imports := ← (imports.getD (.array [])).list? (Json.list? Json.text?)
        decl := ← ClassDecl.ofJson? decl }
  | _ => none

/-- The one error for everything that is no program. It does not say what is wrong or where. -/
def malformed : CompileError := .internal "malformed typed program"

/-- The program that a JSON value stands for, or the one error if it stands for none. -/
def ofJson (j : Json) : Except CompileError Program :=
  match ofJson? j with
  | some program => .ok program
  | none => .error malformed

/-- The program that a text spells. A text that is no JSON and one that is no program are reported
alike. -/
def parse (source : String) : Except CompileError Program :=
  match Json.parse? source with
  | some j => ofJson j
  | none => .error malformed

end Program

end MiniJava.Source
