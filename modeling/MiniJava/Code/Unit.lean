import MiniJava.Code.Instr

/-!
A class in three-address code, and its text.
-/

namespace MiniJava.Code

/-- A field or a parameter of a class in three-address code. Local variables are not listed: the
instructions name them. -/
structure Variable where
  name : String
  ty : Ty
deriving DecidableEq, Repr, Inhabited

def Variable.text (v : Variable) : String := v.name ++ v.ty.text

/-- A method in three-address code. Whether it collects arguments is kept for its text alone. -/
structure Method where
  name : String
  isPublic : Bool
  isStatic : Bool
  isVarargs : Bool
  parameters : List Variable
  returnType : Ty
  body : List Instr
deriving DecidableEq, Repr, Inhabited

namespace Method

/-- A public instance method without parameters and code, of the given name and type of result. -/
def empty (name : String) (returnType : Ty) : Method where
  name := name
  isPublic := true
  isStatic := false
  isVarargs := false
  parameters := []
  returnType := returnType
  body := []

def parameterTypes (m : Method) : List Ty := m.parameters.map (·.ty)

def endsWithReturn (m : Method) : Bool := m.body.getLast?.any Instr.isReturn

/-- The variables of the method, parameters first, in the order in which they are named; a name
stands once for each place that names it. -/
def names (m : Method) : List String := m.parameters.map (·.name) ++ m.body.flatMap Instr.names

/-- The words that stand before the name of a method, each with a blank after it. The same words open the
method in assembly text. -/
def modifiers (m : Method) : String :=
  (if m.isPublic then "public " else "") ++ (if m.isStatic then "static " else "") ++
    (if m.isVarargs then "varargs " else "")

/-- One line of a body: labels stand further left than the rest, and a semicolon ends every line but
theirs. -/
def instrLine : Instr → String
  | .label l => "    " ++ (Instr.label l).text ++ "\n"
  | i => "        " ++ i.text ++ ";\n"

/-- The text of a method, with one instruction a line between braces. The last line has no line feed,
since the text of the class sets each method apart. -/
def text (m : Method) : String :=
  ".method " ++ m.modifiers ++ m.name ++ "(" ++
    String.intercalate ", " (m.parameters.map Variable.text) ++ ")" ++ m.returnType.text ++
    " \x7b\n" ++ String.join (m.body.map instrLine) ++ "\x7d"

end Method

/-- A class in three-address code. It has a default constructor besides its methods if it is asked for,
and the constructor is no method of the list. -/
structure ClassUnit where
  name : String
  superClass : Option String
  imports : List String
  fields : List Variable
  methods : List Method
  hasDefaultConstructor : Bool
deriving DecidableEq, Repr, Inhabited

namespace ClassUnit

/-- A class with a default constructor and nothing else. -/
def empty (name : String) : ClassUnit := ⟨name, none, [], [], [], true⟩

/-- The first method of that name. Overloaded methods are not told apart by this. -/
def method? (u : ClassUnit) (name : String) : Option Method := u.methods.find? (·.name = name)

/-- Drops the carriage return at the end of a line; the line is given backwards. Only one is dropped, so
that a line may still end in another. -/
def dropReturn : List Char → List Char
  | '\r' :: line => line
  | line => line

/-- The lines of a text. A line ends with a line feed, to which a carriage return before it
belongs; an empty line at the end is none. The characters of the open line come first, the latest
in front. -/
def linesFrom (line : List Char) : List Char → List (List Char)
  | [] => if line = [] then [] else [line.reverse]
  | '\n' :: rest => (dropReturn line).reverse :: linesFrom [] rest
  | c :: rest => linesFrom (c :: line) rest

/-- A text with each of its lines four blanks to the right. An empty line is moved too, and the last line
gets a line feed whether it had one or not. -/
def indented (s : String) : String :=
  String.join ((linesFrom [] s.toList).map fun line => "    " ++ String.ofList line ++ "\n")

/-- The imports, one a line, and an empty line behind them if there are any. They are shown by their
dotted names, in the order of the program. -/
def importLines (imports : List String) : String :=
  if imports.isEmpty then ""
  else String.join (imports.map fun path => "import " ++ path ++ ";\n") ++ "\n"

def headLine (name : String) : Option String → String
  | some superClass => name ++ " extends " ++ superClass ++ " \x7b\n"
  | none => name ++ " \x7b\n"

def constructorText (name : String) : String :=
  "\n    .construct " ++ name ++ "().V \x7b\n        invokespecial(this, \"<init>\").V;\n    \x7d\n"

/-- The text of a class, without a line feed at its end. -/
def text (u : ClassUnit) : String :=
  importLines u.imports ++ headLine u.name u.superClass ++
    String.join (u.fields.map fun field => "    .field public " ++ field.text ++ ";\n") ++
    (if u.hasDefaultConstructor then constructorText u.name else "") ++
    String.join (u.methods.map fun method => "\n" ++ indented method.text) ++ "\x7d"

end ClassUnit

end MiniJava.Code
