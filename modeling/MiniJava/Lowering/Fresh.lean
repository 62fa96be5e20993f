import MiniJava.Code.Instr
import MiniJava.Error
import MiniJava.Source.Symbols

/-!
Numbers for temporaries and labels. Lowering threads them through a whole class; a failure keeps
the numbers reached so far.
-/

namespace MiniJava.Lowering

open Code (Label)

/-- The next number for a temporary and the next for a pair of labels. The numbers have no bound here;
counters of 32 bits give the same ones as long as these stay below 2^32. -/
structure Fresh where
  nextTemp : Nat
  nextLabel : Nat
deriving DecidableEq, Repr, Inhabited

/-- The numbers at the start of a class. They are set once for a class and not for each method, so that
no two methods of a class share a label. -/
def Fresh.start : Fresh := ⟨0, 0⟩

/-- Lowering steps: they may fail and take fresh numbers. A step that fails leaves the numbers that it
has reached, and whatever is lowered after it goes on from there. -/
abbrev Lower := EStateM CompileError Fresh

/-- The name of the temporary with a number. A program may declare such a name itself, which is why a
free one is searched for. -/
def tempName (n : Nat) : String := "tmp" ++ toString n

/-- The least number from `n` on whose temporary is not among the names taken. A name that was met
need not be met again, so the names left to try against are ever fewer. -/
def firstFree (taken : List String) (n : Nat) : Nat :=
  if tempName n ∈ taken then firstFree (taken.erase (tempName n)) (n + 1) else n
termination_by taken.length
decreasing_by
  have := List.length_pos_of_mem ‹_›
  grind [List.length_erase_of_mem]

/-- A name for a temporary that is not among the names taken. The numbers that were passed over in the
search are not tried again, so a later temporary has a greater number. -/
def newTemp (taken : List String) : Lower String :=
  modifyGet fun fresh =>
    let n := firstFree taken fresh.nextTemp
    (tempName n, { fresh with nextTemp := n + 1 })

/-- The number for the next pair of labels. Unlike names of temporaries, labels cannot collide with
anything that the program declares. -/
def newLabelId : Lower Nat :=
  modifyGet fun fresh => (fresh.nextLabel, { fresh with nextLabel := fresh.nextLabel + 1 })

/-- The labels of a conditional: of the part that runs when the condition holds, and of the end. One
number serves both, since their kinds tell them apart. -/
def newIfLabels : Lower (Label × Label) := do
  let id ← newLabelId
  return (⟨.ifBody, id⟩, ⟨.endIf, id⟩)

/-- The labels of a loop: of its body, and of the end. As for a conditional, the two share a number. The
test before the first round needs no label, since nothing jumps back to it. -/
def newWhileLabels : Lower (Label × Label) := do
  let id ← newLabelId
  return (⟨.whileBody, id⟩, ⟨.endWhile, id⟩)

/-- The class and the method in which code stands. The method is given by its signature: names are
resolved by what it declares, and its body is of no account. -/
structure Scope where
  symbols : Source.SymbolTable
  method : Source.Signature
deriving Inhabited

namespace Scope

/-- The names that no temporary may have: what the method declares and the fields of the class. Imports
are left out, since an operand that is a class is told apart from a variable of its name. -/
def takenNames (scope : Scope) : List String :=
  (scope.method.locals ++ scope.method.parameters ++ scope.symbols.fields).map (·.name)

/-- A new temporary of the method. The names of other methods are free to be taken, because a temporary
lives in one method only. -/
def newTemp (scope : Scope) : Lower String := Lowering.newTemp scope.takenNames

/-- The receiver of the method, with the class that is being lowered as its type. Whether the method has
a receiver at all is seen later, when slots are given. -/
def self (scope : Scope) : Code.Operand := .self (.object scope.symbols.className)

/-- The failure to resolve a variable of the method. It is the same whether the variable is read or
assigned, so that a report does not depend on the place of the name. -/
def unresolvedVariable (scope : Scope) (name : String) : CompileError :=
  .unresolved .variable name ("method '" ++ scope.method.name ++ "'")

end Scope

end MiniJava.Lowering
