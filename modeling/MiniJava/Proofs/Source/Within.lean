import MiniJava.Proofs.Code.Forms
import MiniJava.Proofs.Source.Induction
import MiniJava.Source.Symbols

/-! Programs whose names and types belong to a vocabulary. -/

namespace MiniJava.Source

open Code (Vocabulary)

variable (v : Vocabulary)

mutual

/-- Every name and every type in an expression belongs to the vocabulary. The types are those that code
would mention. -/
def Expr.Within : Expr → Prop
  | .intLiteral _ | .boolLiteral _ => True
  | .ident name ty => v.name name ∧ v.ty (.ofSource ty)
  | .self ty => v.ty (.ofSource ty)
  | .index base place ty => base.Within ∧ place.Within ∧ v.ty (.ofSource ty)
  | .paren inner => inner.Within
  | .not operand => operand.Within
  | .newArray size => size.Within
  | .newObject className => v.name className ∧ v.ty (.object className)
  | .arrayLiteral elements => AllWithin elements
  | .binary _ left right ty => left.Within ∧ right.Within ∧ v.ty (.ofSource ty)
  | .call receiver method arguments ty =>
      receiver.Within ∧ v.name method ∧ AllWithin arguments ∧ v.ty (.ofSource ty)
termination_by structural e => e

/-- Every name and every type in the expressions of a list belongs to the vocabulary. -/
def AllWithin : List Expr → Prop
  | [] => True
  | e :: rest => e.Within ∧ AllWithin rest
termination_by structural es => es

end

mutual

/-- Every name and every type in a statement belongs to the vocabulary, those in the statements inside it
too. -/
def Stmt.Within : Stmt → Prop
  | .block statements => StmtsWithin statements
  | .cond condition thenBranch elseBranch =>
      condition.Within v ∧ thenBranch.Within ∧ OptionalWithin elseBranch
  | .loop condition body => condition.Within v ∧ body.Within
  | .assign target value => target.Within v ∧ value.Within v
  | .ret value => ∀ e ∈ value, e.Within v
  | .eval e => e.Within v
termination_by structural s => s

def OptionalWithin : Option Stmt → Prop
  | none => True
  | some s => s.Within
termination_by structural o => o

/-- Every name and every type in the statements of a list belongs to the vocabulary. -/
def StmtsWithin : List Stmt → Prop
  | [] => True
  | s :: rest => s.Within ∧ StmtsWithin rest
termination_by structural ss => ss

end

/-- The name and the type of a declaration belong to the vocabulary, the latter as the type of code that
it becomes. -/
structure Declaration.Within (d : Declaration) : Prop where
  name : v.name d.name
  ty : v.ty (.ofSource d.ty)

/-- Everything that a method declares and everything in its body belongs to the vocabulary. -/
structure MethodDecl.Within (m : MethodDecl) : Prop where
  name : v.name m.name
  returnType : v.ty (.ofSource m.returnType)
  parameters : ∀ d ∈ m.parameters, d.Within v
  locals : ∀ d ∈ m.locals, d.Within v
  body : StmtsWithin v m.body

/-- Every name and every type in the program belongs to the vocabulary: imports by their segments, and
all that its class declares. -/
structure Program.Within (p : Program) : Prop where
  imports : ∀ path ∈ p.imports, ∀ segment ∈ path, v.name segment
  className : v.name p.decl.name
  classTy : v.ty (.object p.decl.name)
  superClass : ∀ name ∈ p.decl.superClass, v.name name
  fields : ∀ d ∈ p.decl.fields, d.Within v
  methods : ∀ m ∈ p.decl.methods, m.Within v

variable {v}

theorem allWithin_iff {es : List Expr} : AllWithin v es ↔ ∀ e ∈ es, e.Within v := by
  induction es with
  | nil => simp [AllWithin]
  | cons e rest ih => simp [AllWithin, ih]

theorem stmtsWithin_iff {ss : List Stmt} : StmtsWithin v ss ↔ ∀ s ∈ ss, s.Within v := by
  induction ss with
  | nil => simp [StmtsWithin]
  | cons s rest ih => simp [StmtsWithin, ih]

theorem optionalWithin_iff {o : Option Stmt} : OptionalWithin v o ↔ ∀ s ∈ o, s.Within v := by
  cases o <;> simp [OptionalWithin]

/-- Parentheses bring in no names. -/
theorem within_bare {e : Expr} : e.bare.Within v ↔ e.Within v := by
  induction e with
  | paren inner ih => exact ih
  | _ => rfl

theorem Expr.within_all (e : Expr) : e.Within .all := by
  induction e with
  | arrayLiteral elements ih => exact allWithin_iff.mpr ih
  | call receiver method arguments ty hReceiver hArguments =>
      exact ⟨hReceiver, trivial, allWithin_iff.mpr hArguments, trivial⟩
  | _ => simp_all [Expr.Within, Vocabulary.all]

theorem Stmt.within_all (s : Stmt) : s.Within .all := by
  induction s with
  | block statements ih => exact stmtsWithin_iff.mpr ih
  | cond condition thenBranch elseBranch hThen hElse =>
      exact ⟨condition.within_all, hThen, optionalWithin_iff.mpr hElse⟩
  | loop condition body hBody => exact ⟨condition.within_all, hBody⟩
  | assign target value => exact ⟨target.within_all, value.within_all⟩
  | ret value => exact fun e _ => e.within_all
  | eval e => exact e.within_all

theorem Program.within_all (p : Program) : p.Within .all where
  imports _ _ _ _ := trivial
  className := trivial
  classTy := trivial
  superClass _ _ := trivial
  fields _ _ := ⟨trivial, trivial⟩
  methods _ _ := {
    name := trivial
    returnType := trivial
    parameters _ _ := ⟨trivial, trivial⟩
    locals _ _ := ⟨trivial, trivial⟩
    body := stmtsWithin_iff.mpr fun s _ => s.within_all }

end MiniJava.Source
