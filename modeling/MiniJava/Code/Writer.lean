import MiniJava.Code.Unit
import MiniJava.Json.Basic

/-!
Writing three-address code as JSON. A case without data is its name, any other an object with the
name as the only member.
-/

namespace MiniJava.Code

/-- A case with data: an object with the name of the case as its only member. -/
def tagged (name : String) (data : Json) : Json := .ofFields [(name, data)]

/-- A case with named data: the data is an object itself, and its members stand in the order of the
fields. -/
def taggedFields (name : String) (fields : List (String × Json)) : Json :=
  tagged name (.ofFields fields)

/-- Types without data are their names; a class type and an array carry the name or the type of the
items. -/
def Ty.toJson : Ty → Json
  | .int32 => .ofString "Int32"
  | .boolean => .ofString "Boolean"
  | .string => .ofString "String"
  | .void => .ofString "Void"
  | .object className => tagged "Object" (.ofString className)
  | .array element => tagged "Array" element.toJson

/-- An operand as a case with named data; the place of an item is an operand again. -/
def Operand.toJson : Operand → Json
  | .literal value ty => taggedFields "Literal" [("value", .ofInt value.toInt), ("ty", ty.toJson)]
  | .variable name ty => taggedFields "Variable" [("name", .ofString name), ("ty", ty.toJson)]
  | .element array place ty =>
      taggedFields "ArrayElement"
        [("array", .ofString array), ("index", place.toJson), ("ty", ty.toJson)]
  | .self ty => taggedFields "This" [("ty", ty.toJson)]
  | .classRef name => taggedFields "Class" [("name", .ofString name)]

def BinaryOp.toJson : BinaryOp → Json
  | .add => .ofString "Add"
  | .sub => .ofString "Sub"
  | .mul => .ofString "Mul"
  | .div => .ofString "Div"
  | .lt => .ofString "Lt"
  | .gt => .ofString "Gt"
  | .le => .ofString "Le"
  | .ge => .ofString "Ge"
  | .and => .ofString "And"

def LabelKind.toJson : LabelKind → Json
  | .ifBody => .ofString "IfBody"
  | .endIf => .ofString "EndIf"
  | .whileBody => .ofString "WhileBody"
  | .endWhile => .ofString "EndWhile"

def Label.toJson (l : Label) : Json := .ofFields [("kind", l.kind.toJson), ("id", .ofInt l.id)]

def Condition.toJson : Condition → Json
  | .single operand => tagged "Single" operand.toJson
  | .compare op left right =>
      taggedFields "Compare" [("op", op.toJson), ("lhs", left.toJson), ("rhs", right.toJson)]

def CallKind.toJson : CallKind → Json
  | .new => .ofString "New"
  | .invokeSpecial => .ofString "InvokeSpecial"
  | .invokeVirtual => .ofString "InvokeVirtual"
  | .invokeStatic => .ofString "InvokeStatic"
  | .arrayLength => .ofString "ArrayLength"

/-- An instruction as a case. The right-hand side of an assignment is written inside it as an instruction
of its own. -/
def Instr.toJson : Instr → Json
  | .assign dest ty rhs =>
      taggedFields "Assign" [("dest", dest.toJson), ("ty", ty.toJson), ("rhs", rhs.toJson)]
  | .operand o => tagged "SingleOp" o.toJson
  | .binary op left right ty =>
      taggedFields "BinaryOp"
        [("op", op.toJson), ("lhs", left.toJson), ("rhs", right.toJson), ("ty", ty.toJson)]
  | .not o ty =>
      taggedFields "UnaryOp" [("op", .ofString "Not"), ("operand", o.toJson), ("ty", ty.toJson)]
  | .ret value ty =>
      taggedFields "Return" [("value", .ofOption Operand.toJson value), ("ty", ty.toJson)]
  | .getField object field ty =>
      taggedFields "GetField"
        [("object", object.toJson), ("field", .ofString field), ("ty", ty.toJson)]
  | .putField object field ty value =>
      taggedFields "PutField"
        [("object", object.toJson), ("field", .ofString field), ("ty", ty.toJson),
          ("value", value.toJson)]
  | .call kind receiver method arguments returnType =>
      taggedFields "Call"
        [("kind", kind.toJson), ("receiver", receiver.toJson),
          ("method", .ofOption .ofString method), ("arguments", .ofList Operand.toJson arguments),
          ("return_type", returnType.toJson)]
  | .branch condition target =>
      taggedFields "Branch" [("condition", condition.toJson), ("target", target.toJson)]
  | .goto target => tagged "Goto" target.toJson
  | .label l => tagged "Label" l.toJson

def Variable.toJson (v : Variable) : Json :=
  .ofFields [("name", .ofString v.name), ("ty", v.ty.toJson)]

def Method.toJson (m : Method) : Json :=
  .ofFields [
    ("name", .ofString m.name),
    ("is_public", .bool m.isPublic),
    ("is_static", .bool m.isStatic),
    ("is_varargs", .bool m.isVarargs),
    ("parameters", .ofList Variable.toJson m.parameters),
    ("return_type", m.returnType.toJson),
    ("body", .ofList Instr.toJson m.body)]

def ClassUnit.toJson (u : ClassUnit) : Json :=
  .ofFields [
    ("name", .ofString u.name),
    ("super_class", .ofOption .ofString u.superClass),
    ("imports", .ofList .ofString u.imports),
    ("fields", .ofList Variable.toJson u.fields),
    ("methods", .ofList Method.toJson u.methods),
    ("has_default_constructor", .bool u.hasDefaultConstructor)]

end MiniJava.Code
