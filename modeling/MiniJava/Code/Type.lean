import MiniJava.Source.Type

/-!
Types of three-address code.
-/

namespace MiniJava.Code

/-- Types as code knows them. Class types keep their names, and an array can be one of arrays, though no
source type is. -/
inductive Ty where
  | int32
  | boolean
  | string
  | void
  | object (className : String)
  | array (element : Ty)
deriving DecidableEq, Repr, Inhabited

namespace Ty

/-- The type that a type name stands for: four names are known, any other names a class. A class can
therefore not be called by one of the four. -/
def ofName (name : String) : Ty :=
  if name = "int" then .int32
  else if name = "boolean" then .boolean
  else if name = "String" then .string
  else if name = "void" then .void
  else .object name

/-- The type of code that a declared type becomes. The name of an array type is that of its items, so an
array of void is a type here, although nothing can be stored in it. -/
def ofSource (ty : Source.Ty) : Ty := if ty.isArray then .array (ofName ty.name) else ofName ty.name

def intArray : Ty := .array .int32

def isArray : Ty → Bool
  | .array _ => true
  | _ => false

def isVoid : Ty → Bool
  | .void => true
  | _ => false

def element? : Ty → Option Ty
  | .array element => some element
  | _ => none

/-- A type as texts show it behind an operand: a point and a word, once more for each array. Class types
stand by their names as the program writes them, not by those of class files. -/
def text : Ty → String
  | .int32 => ".i32"
  | .boolean => ".bool"
  | .string => ".String"
  | .void => ".V"
  | .object className => "." ++ className
  | .array element => ".array" ++ element.text

end Ty

end MiniJava.Code
