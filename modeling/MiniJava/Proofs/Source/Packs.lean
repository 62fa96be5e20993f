import MiniJava.Proofs.Source.WellTyped

/-! Programs that write no array of more items than an array may have. -/

namespace MiniJava.Source

open Lowering (Scope)

/-- The number of items that an array must stay below, since its places are signed words. -/
def arrayLimit : Nat := Nat.pow 2 31

section

variable (scope : Scope)

mutual

/-- Whether every array literal and every array of collected arguments in an expression is of a size
that an array may have. -/
def Expr.packsFit : Expr → Bool
  | .intLiteral _ | .boolLiteral _ | .ident _ _ | .self _ | .newObject _ => true
  | .paren inner | .not inner | .newArray inner => inner.packsFit
  | .index base place _ => base.packsFit && place.packsFit
  | .arrayLiteral elements => elements.length < arrayLimit && packsFitAll elements
  | .binary _ left right _ => left.packsFit && right.packsFit
  | .call receiver method arguments _ =>
      receiver.packsFit && packsFitAll arguments &&
        (leadingArguments? scope receiver method).all fun n => arguments.length - n < arrayLimit
termination_by structural e => e

/-- Whether the arrays in all expressions of a list are of such a size. -/
def packsFitAll : List Expr → Bool
  | [] => true
  | e :: rest => e.packsFit && packsFitAll rest
termination_by structural es => es

end

mutual

/-- Whether the arrays in all expressions of a statement, those of its parts included, are of such a
size. -/
def Stmt.packsFit : Stmt → Bool
  | .block statements => packsFitStmts statements
  | .cond test thenBranch elseBranch =>
      test.packsFit scope && thenBranch.packsFit && packsFitOptional elseBranch
  | .loop test body => test.packsFit scope && body.packsFit
  | .assign target value => target.packsFit scope && value.packsFit scope
  | .ret none => true
  | .ret (some e) | .eval e => e.packsFit scope
termination_by structural s => s

def packsFitOptional : Option Stmt → Bool
  | none => true
  | some s => s.packsFit
termination_by structural o => o

def packsFitStmts : List Stmt → Bool
  | [] => true
  | s :: rest => s.packsFit && packsFitStmts rest
termination_by structural ss => ss

end

variable {scope}

/-- Arrays in a list of expressions have room if those in each expression have. -/
theorem packsFitAll_iff {es : List Expr} :
    packsFitAll scope es = true ↔ ∀ e ∈ es, e.packsFit scope = true := by
  induction es with
  | nil => simp [packsFitAll]
  | cons e rest ih => simp [packsFitAll, ih]

/-- Arrays in a list of statements have room if those in each statement have. -/
theorem packsFitStmts_iff {ss : List Stmt} :
    packsFitStmts scope ss = true ↔ ∀ s ∈ ss, s.packsFit scope = true := by
  induction ss with
  | nil => simp [packsFitStmts]
  | cons s rest ih => simp [packsFitStmts, ih]

end

/-- Whether every array that a method of the program writes is of a size that an array may have. Arrays
of collected arguments count like literals. -/
def Program.packsFit (program : Program) : Prop :=
  ∀ m ∈ program.decl.methods, packsFitStmts (m.scope program) m.body = true

end MiniJava.Source
