import MiniJava.Lowering.Expr

/-!
What the names in a method stand for, by what the class and the method declare.
-/

namespace MiniJava.Source

open Lowering (Scope)

/-- What a name stands for in a method. A class is not said which one it is, because its name tells. -/
inductive Meaning where
  | variable (ty : Ty)
  | field (ty : Ty)
  | className
  | nothing
deriving DecidableEq, Repr, Inhabited

/-- A variable hides a field, and both hide a class. A name may also mean nothing at all, which is an
answer of its own. -/
def meaning (scope : Scope) (name : String) : Meaning :=
  match scope.method.lookup? name with
  | some declared => .variable declared.ty
  | none =>
      match scope.symbols.field? name with
      | some field => .field field.ty
      | none => if scope.symbols.isClassReference name then .className else .nothing

/-- A name means a class only if neither the method nor the class declares it. -/
theorem meaning_className_iff {scope : Scope} {name : String} :
    meaning scope name = .className ↔ scope.method.lookup? name = none ∧
      scope.symbols.field? name = none ∧ scope.symbols.isClassReference name = true := by
  unfold meaning
  cases scope.method.lookup? name with
  | some d => simp
  | none =>
      cases scope.symbols.field? name with
      | some d => simp
      | none => cases scope.symbols.isClassReference name <;> simp

/-- The class that a receiver names, if it does not stand for an object. Parentheses around the name do
not matter. -/
def receiverClass? (scope : Scope) (receiver : Expr) : Option String :=
  match receiver.bare with
  | .ident name _ => if meaning scope name = .className then some name else none
  | _ => none

/-- Whether a call goes to a method of the class itself: by the name of the class, or on an object whose
type it is. -/
def callsOwnClass (scope : Scope) (receiver : Expr) : Bool :=
  match receiverClass? scope receiver with
  | some className => className = scope.symbols.className
  | none => receiver.ty = .object scope.symbols.className

/-- The number of arguments before those that are collected in an array, for a call of a method
of the class itself that collects any. -/
def leadingArguments? (scope : Scope) (receiver : Expr) (method : String) : Option Nat :=
  if callsOwnClass scope receiver then
    ((scope.symbols.method? method).filter (·.isVarargs)).map (·.parameters.length - 1)
  else none

end MiniJava.Source
