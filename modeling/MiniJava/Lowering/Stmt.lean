import MiniJava.Lowering.Expr

/-!
Three-address code for statements. The code of a statement runs from its first instruction to its
end, with no jump out of it. In an assignment the right-hand side is lowered before the target.
-/

namespace MiniJava.Lowering

open Code (Condition Instr Label)
open Source (Expr Stmt)

/-- Code that leaves a value unused. An operand has no effect, and no instruction stands for it; any
other instruction is kept for its effect, and its value is dropped when it is emitted. -/
def discarded : Lowered → List Instr
  | ⟨.operand _, code⟩ => code
  | ⟨value, code⟩ => code ++ [value]

/-- An assignment to a name: a variable of the method, else a field. A variable can take the value of any
one instruction, a field that of an operand only. A class cannot be assigned to. -/
def assignName (scope : Scope) (name : String) (value : Expr) : Lower (List Instr) :=
  match scope.method.lookup? name with
  | some declared => do
      let ty := .ofSource declared.ty
      let rhs ← expr scope value .assignRhs
      return rhs.code ++ [.assign (.variable name ty) ty rhs.value]
  | none =>
      match scope.symbols.visibleField? scope.method.name name with
      | some field => do
          let (rhs, code) ← operand scope value
          return code ++ [.putField scope.self name (.ofSource field.ty) rhs]
      | none => throw (scope.unresolvedVariable name)

/-- An assignment to an item of an array. The last instruction of the right-hand side may be left over to
the store itself, and then it runs after the code of the array and of the place. -/
def assignElement (scope : Scope) (base place : Expr) (ty : Source.Ty) (value : Expr) :
    Lower (List Instr) := do
  let rhs ← expr scope value .assignRhs
  let (array, baseCode) ← operand scope base
  let (place, placeCode) ← operand scope place
  match array.variableName? with
  | some name =>
      let ty := .ofSource ty
      return rhs.code ++ baseCode ++ placeCode ++ [.assign (.element name place ty) ty rhs.value]
  | none => throw (.unsupported ("assignment into element of " ++ array.text))

/-- An assignment to a variable, a field or an item of an array, in any parentheses. Nothing else can be
assigned to. -/
def assign (scope : Scope) (target value : Expr) : Lower (List Instr) :=
  match target.bare with
  | .ident name _ => assignName scope name value
  | .index base place ty => assignElement scope base place ty value
  | other => throw (.unsupported ("assignment to " ++ other.kindName))

/-- Runs `elseCode` and skips over `thenCode`, or jumps to `thenCode`. The code for the other case stands
first, so that control falls into it where the condition fails. -/
def conditional (labels : Label × Label) (condition : Condition) (thenCode elseCode : List Instr) :
    List Instr :=
  .branch condition labels.1 :: elseCode ++ .goto labels.2 :: .label labels.1 :: thenCode ++
    [.label labels.2]

/-- Tests before the first round and again after each, with a copy of the test for the latter. The two
copies are lowered apart, so their temporaries and labels differ. -/
def whileLoop (labels : Label × Label) (entry : Condition) (body : List Instr)
    (again : Condition × List Instr) : List Instr :=
  .branch entry labels.1 :: .goto labels.2 :: .label labels.1 :: body ++ again.2 ++
    [.branch again.1 labels.1, .label labels.2]

/-- A return. The type with which it is written is the one that the method declares, whatever the type of
the value, and a value in a void method is left for the emission to refuse. -/
def ret (scope : Scope) (value : Option Expr) : Lower (List Instr) := do
  let ty := .ofSource scope.method.returnType
  match value with
  | none => return [.ret none ty]
  | some e =>
      let (value, code) ← operand scope e
      return code ++ [.ret (some value) ty]

mutual

/-- The code of a statement. Of the two branches of a conditional the second is lowered first, in the
order in which their code stands. -/
def stmt (scope : Scope) : Stmt → Lower (List Instr)
  | .block statements => stmts scope statements
  | .cond test thenBranch elseBranch => do
      let (condition, code) ← condition scope test
      let labels ← newIfLabels
      let elseCode ← optionalStmt scope elseBranch
      let thenCode ← stmt scope thenBranch
      return code ++ conditional labels condition thenCode elseCode
  | .loop test body => do
      let (entry, code) ← condition scope test
      let labels ← newWhileLabels
      let body ← stmt scope body
      let again ← condition scope test
      return code ++ whileLoop labels entry body again
  | .assign target value => assign scope target value
  | .ret value => ret scope value
  | .eval e => return discarded (← expr scope e .discard)
termination_by structural s => s

/-- A statement that may be missing; a missing one has no code. It is a function of its own so that the
recursion over statements stays structural. -/
def optionalStmt (scope : Scope) : Option Stmt → Lower (List Instr)
  | none => return []
  | some s => stmt scope s
termination_by structural o => o

/-- The code of statements, one after the other. The first statement that cannot be lowered ends the
list, and what comes after it takes no numbers. -/
def stmts (scope : Scope) : List Stmt → Lower (List Instr)
  | [] => return []
  | s :: rest => return (← stmt scope s) ++ (← stmts scope rest)
termination_by structural ss => ss

end

end MiniJava.Lowering
