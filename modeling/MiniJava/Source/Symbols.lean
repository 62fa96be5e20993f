import MiniJava.Name
import MiniJava.Source.Syntax

/-!
What a class declares, without its code. Names are looked up by their first declaration.
-/

namespace MiniJava.Source

/-- A method without its body: all that other code needs to know of it. -/
structure Signature where
  name : String
  returnType : Ty
  parameters : List Declaration
  locals : List Declaration
  isStatic : Bool
  isPublic : Bool
deriving DecidableEq, Repr, Inhabited

namespace Signature

/-- The signature of a method that is declared with a body. Nothing is dropped but the body. -/
def ofMethod (method : MethodDecl) : Signature where
  name := method.name
  returnType := method.returnType
  parameters := method.parameters
  locals := method.locals
  isStatic := method.isStatic
  isPublic := method.isPublic

/-- Whether the last parameter collects trailing arguments. The mark is looked for on the last parameter
alone, wherever else it may stand. -/
def isVarargs (signature : Signature) : Bool :=
  signature.parameters.getLast?.any (·.isVarargs)

def parameter? (signature : Signature) (name : String) : Option Declaration :=
  declaration? signature.parameters name

def localVariable? (signature : Signature) (name : String) : Option Declaration :=
  declaration? signature.locals name

/-- The local variable or, failing that, the parameter called `name`. A local variable hides a parameter
of its name. -/
def lookup? (signature : Signature) (name : String) : Option Declaration :=
  (signature.localVariable? name).or (signature.parameter? name)

end Signature

/-- What the code of a class can refer to: the class, its superclass and imports, and what it
declares. -/
structure SymbolTable where
  className : String
  superClass : Option String
  imports : List String
  fields : List Declaration
  methods : List Signature
deriving DecidableEq, Repr, Inhabited

namespace SymbolTable

/-- A class without imports, superclass, fields and methods, of which only the name is known. -/
def empty (className : String) : SymbolTable := ⟨className, none, [], [], []⟩

/-- The symbols of a program. Imports are joined to dotted names, and every method leaves its signature,
in the order of the program. -/
def ofProgram (program : Program) : SymbolTable where
  className := program.decl.name
  superClass := program.decl.superClass
  imports := program.imports.map (String.intercalate ".")
  fields := program.decl.fields
  methods := program.decl.methods.map Signature.ofMethod

def method? (table : SymbolTable) (name : String) : Option Signature :=
  table.methods.find? (·.name = name)

def field? (table : SymbolTable) (name : String) : Option Declaration :=
  declaration? table.fields name

def methodNames (table : SymbolTable) : List String := table.methods.map (·.name)

/-- The field that `name` means in `method`: none where a variable of the method hides it. -/
def visibleField? (table : SymbolTable) (method name : String) : Option Declaration :=
  if ((table.method? method).bind (·.lookup? name)).isSome then none else table.field? name

/-- The dotted name that `name` abbreviates: the first import that ends in it. -/
def importedClass? (table : SymbolTable) (name : String) : Option String :=
  importOf? table.imports name

/-- Whether `name` is the class itself or an imported one. Other classes may be named as types, but no
static call can go to them. -/
def isClassReference (table : SymbolTable) (name : String) : Bool :=
  name = table.className || (table.importedClass? name).isSome

end SymbolTable

end MiniJava.Source
