import MiniJava.Code.Unit
import MiniJava.Error
import MiniJava.Name
import MiniJava.Stack.Instr

/-!
Class names and descriptors, as the code of one class refers to them.
-/

namespace MiniJava.Assembly

open Code (ClassUnit Operand Ty)
open Stack (FieldRef MethodRef)

def stringClass : String := "java/lang/String"

/-- The internal name of a class that `unit` mentions: the class itself, an import by its last
segment, or a name as it is. -/
def qualify (unit : ClassUnit) (name : String) : String :=
  if name = unit.name then name
  else slashed ((importOf? unit.imports name).getD name)

/-- A class with the internal name of its superclass. All references of its code to classes and members
are made in this scope. -/
structure ClassScope where
  unit : ClassUnit
  superName : String
deriving Inhabited

namespace ClassScope

/-- The scope of a class. The superclass that it names is looked up among the imports, while
`defaultSuper` is an internal name already. -/
def ofUnit (defaultSuper : String) (unit : ClassUnit) : ClassScope where
  unit := unit
  superName := (unit.superClass.map (qualify unit)).getD defaultSuper

/-- The descriptor of a type. Class types stand in it by the internal names of their classes, so two
spellings of one class give one descriptor. -/
def descriptor (scope : ClassScope) : Ty → String
  | .int32 => "I"
  | .boolean => "Z"
  | .void => "V"
  | .string => "L" ++ stringClass ++ ";"
  | .object name => "L" ++ qualify scope.unit name ++ ";"
  | .array element => "[" ++ scope.descriptor element

/-- The class whose members an operand gives access to. An array or a number has none, and the report
names the operand and its type. -/
def classOf (scope : ClassScope) (operand : Operand) : Except CompileError String :=
  match operand with
  | .self _ => .ok scope.unit.name
  | .classRef name => .ok (qualify scope.unit name)
  | other =>
      match other.ty with
      | .object name => .ok (qualify scope.unit name)
      | .string => .ok stringClass
      | ty => .error (.unsupported ("member access on " ++ other.text ++ " of type " ++ ty.text))

/-- The field that an access means: in the class of the object, and with the type written at the access.
The declaration of the field is not looked up. -/
def fieldRef (scope : ClassScope) (object : Operand) (field : String) (ty : Ty) :
    Except CompileError FieldRef := do
  return ⟨← scope.classOf object, field, scope.descriptor ty⟩

/-- The method that a call refers to. Its parameters are those that the class declares, if it
declares a method of the name and number, and otherwise have the types of the arguments. -/
def methodRef (scope : ClassScope) (className name : String) (arguments : List Operand)
    (result : Ty) : MethodRef where
  className := className
  name := name
  parameters := (parameterTypes.map scope.descriptor)
  result := scope.descriptor result
where
  declared? : Option Code.Method :=
    if className = scope.unit.name then
      (scope.unit.method? name).filter (·.parameters.length = arguments.length)
    else none
  parameterTypes : List Ty :=
    match declared? with
    | some method => method.parameterTypes
    | none => arguments.map Operand.ty

end ClassScope

end MiniJava.Assembly
