/-!
Declared types and the declarations that carry them.
-/

namespace MiniJava.Source

/-- A declared type: a name, or an array whose items have that name. There are no arrays of arrays,
because one mark is all that a type can carry. -/
structure Ty where
  name : String
  isArray : Bool
deriving DecidableEq, Repr, Inhabited

namespace Ty

def int : Ty := ⟨"int", false⟩

def boolean : Ty := ⟨"boolean", false⟩

def string : Ty := ⟨"String", false⟩

def void : Ty := ⟨"void", false⟩

def intArray : Ty := ⟨"int", true⟩

def object (className : String) : Ty := ⟨className, false⟩

/-- The type of an item of an array; a type that is no array stays as it is. So indexing what is no array
gives a type, and it is elsewhere that this is refused. -/
def element (ty : Ty) : Ty := ⟨ty.name, false⟩

/-- Whether the name is `void`, for an array too. Such a type has no values, and a variable of it could
hold nothing. -/
def isVoid (ty : Ty) : Bool := ty.name = "void"

def text (ty : Ty) : String := if ty.isArray then ty.name ++ "[]" else ty.name

end Ty

/-- A field, a parameter or a local variable. A parameter that `isVarargs` collects the trailing
arguments of a call. -/
structure Declaration where
  name : String
  ty : Ty
  isVarargs : Bool
deriving DecidableEq, Repr, Inhabited

namespace Declaration

def plain (name : String) (ty : Ty) : Declaration := ⟨name, ty, false⟩

/-- A parameter that collects trailing integers. It is of an array type, as the method sees what was
collected. -/
def varargs (name : String) : Declaration := ⟨name, .intArray, true⟩

end Declaration

/-- The first declaration of `name`. A later one of the same name is never found. -/
def declaration? (declarations : List Declaration) (name : String) : Option Declaration :=
  declarations.find? (·.name = name)

end MiniJava.Source
