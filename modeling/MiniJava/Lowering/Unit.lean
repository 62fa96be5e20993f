import MiniJava.Code.Unit
import MiniJava.Lowering.Stmt

/-!
Three-address code for methods and classes. The numbers of temporaries and labels run on from one
method of a class to the next and start anew with each class.
-/

namespace MiniJava.Lowering

open Source (MethodDecl Program SymbolTable)

/-- A declared variable in three-address code, where it no longer says whether it collects arguments. The
signature of the method keeps that, and calls look it up there. -/
def variableOf (d : Source.Declaration) : Code.Variable := ⟨d.name, .ofSource d.ty⟩

/-- A method of void type ends with a return, which is added if none is there. Other methods are left as
they are: that every path of them returns is the concern of whoever checked the types. -/
def closed (m : Code.Method) : Code.Method :=
  if m.returnType.isVoid && !m.endsWithReturn then { m with body := m.body ++ [.ret none .void] }
  else m

/-- A method in three-address code. Names in it are resolved by the first method of its name that the
class declares. -/
def method (symbols : SymbolTable) (m : MethodDecl) : Lower Code.Method :=
  match symbols.method? m.name with
  | none => throw (.unresolved .method m.name ("class '" ++ symbols.className ++ "'"))
  | some signature => do
      let body ← stmts ⟨symbols, signature⟩ m.body
      return closed {
        name := m.name
        isPublic := m.isPublic
        isStatic := m.isStatic
        isVarargs := signature.isVarargs
        parameters := m.parameters.map variableOf
        returnType := .ofSource m.returnType
        body }

/-- Methods one after the other. The first that fails ends the class, and no code is given for the
methods before it either. -/
def methods (symbols : SymbolTable) : List MethodDecl → Lower (List Code.Method)
  | [] => return []
  | m :: rest => return (← method symbols m) :: (← methods symbols rest)

/-- A class, with names resolved in `symbols`. The numbers start anew, whatever was lowered before, so
the code of a class depends on the class alone. -/
def classUnit (defaultConstructor : Bool) (program : Program) (symbols : SymbolTable) :
    Lower Code.ClassUnit := do
  set Fresh.start
  return {
    name := program.decl.name
    superClass := program.decl.superClass
    imports := symbols.imports
    fields := program.decl.fields.map variableOf
    methods := ← methods symbols program.decl.methods
    hasDefaultConstructor := defaultConstructor }

/-- The answer of a step, with the numbers it leaves behind. They are there for a failure too, which a
step in the monad itself would not show. -/
def answer (step : Lower α) (fresh : Fresh) : Except CompileError α × Fresh :=
  match step.run fresh with
  | .ok a fresh => (.ok a, fresh)
  | .error e fresh => (.error e, fresh)

/-- The answers of steps that are taken one after the other, whether or not those before succeed. Each
begins with the numbers that the one before it left, also if that one failed. -/
def answers (fresh : Fresh) : List (Lower α) → List (Except CompileError α)
  | [] => []
  | step :: rest => (answer step fresh).1 :: answers (answer step fresh).2 rest

/-- A program in three-address code. Its symbols are collected from the program itself, so names are
resolved by what it declares and imports. -/
def ofProgram (defaultConstructor : Bool) (program : Program) :
    Except CompileError Code.ClassUnit :=
  (answer (classUnit defaultConstructor program (.ofProgram program)) .start).1

end MiniJava.Lowering
