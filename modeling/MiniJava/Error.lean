/-!
What can stop a compilation, with the wording of each report.
-/

namespace MiniJava

/-- What an unresolved name was expected to be. There is no case for classes, since a name that could
mean a class is reported as a variable. -/
inductive SymbolKind where
  | variable
  | method
deriving DecidableEq, Repr, Inhabited

def SymbolKind.text : SymbolKind → String
  | .variable => "variable"
  | .method => "method"

/-- Why a compilation stops. Each cause carries what its report names, so that the wording stands in one
place. -/
inductive CompileError where
  /-- The program is readable, but no code can be given for this part of it. -/
  | unsupported (construct : String)
  /-- A name that `context` does not declare. -/
  | unresolved (kind : SymbolKind) (name context : String)
  /-- `instruction` needs more operands than the stack of `method` holds before it. -/
  | stackUnderflow (method instruction : String)
  /-- A file could not be read or written. -/
  | io (message : String)
  /-- A limit of the output format is exceeded, or a stage was given what it cannot take. -/
  | internal (message : String)
deriving DecidableEq, Repr, Inhabited

/-- The wording of each report. It names the place of the failure as far as the cause knows it, and
nothing of the stage that found it. -/
def CompileError.message : CompileError → String
  | .unsupported construct => "Unsupported construct: " ++ construct
  | .unresolved kind name context => "Unresolved " ++ kind.text ++ " '" ++ name ++ "' in " ++ context
  | .stackUnderflow method instruction =>
      "Operand stack underflow in method '" ++ method ++ "' at '" ++ instruction ++ "'"
  | .io message => "IO error: " ++ message
  | .internal message => "Internal compiler error: " ++ message

end MiniJava
