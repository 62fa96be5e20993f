import MiniJava.Proofs.Lowering.Forms

/-! What lowering an expression can fail by. Where an operand or a condition is asked for, the value is
always one, so that asking for it brings in no failure of its own. -/

namespace MiniJava

/-- A sequence of two steps fails where the first one does, or where the second one does after it. -/
theorem run_bind_error {ε σ α β : Type} {x : EStateM ε σ α} {k : α → EStateM ε σ β} {s s' : σ}
    {e : ε} : (x >>= k).run s = .error e s' ↔
      x.run s = .error e s' ∨ ∃ a s₁, x.run s = .ok a s₁ ∧ (k a).run s₁ = .error e s' := by
  rw [EStateM.run_bind]
  cases x.run s with
  | ok a s₁ =>
      constructor
      · exact fun h => .inr ⟨a, s₁, rfl, h⟩
      · rintro (⟨⟨⟩⟩ | ⟨_, _, ⟨⟩, h⟩)
        exact h
  | error e' s₁ => simp

/-- A failure for which the program is to blame, or a limit on the length of arrays. Any other internal
failure would be a fault of lowering. -/
def CompileError.Foreseen (error : CompileError) : Prop :=
  ∀ message, error = .internal message → message = "array literal too long"

end MiniJava

namespace MiniJava.Lowering

open Code (CallKind Condition Instr Operand Vocabulary)
open Source (Expr)

variable {scope : Scope} {fresh fresh' : Fresh} {error : CompileError}

theorem Scope.within_all (scope : Scope) : scope.Within .all where
  classTy := trivial
  fields _ _ := ⟨trivial, trivial⟩
  parameters _ _ := ⟨trivial, trivial⟩
  locals _ _ := ⟨trivial, trivial⟩
  returnType := trivial

/-- What the value of an expression may be, whatever the expression says. -/
theorem serves_expr {e : Expr} {use : Use} {l : Lowered}
    (h : (expr scope e use).run fresh = .ok l fresh') : Serves .all use l.value :=
  (lowersFormed scope.within_all e.within_all h).value

/-- Lowering an expression for an operand fails only where lowering the expression does. The check that
it is an operand never fails. -/
theorem operand_error {e : Expr} :
    (operand scope e).run fresh = .error error fresh' ↔
      (expr scope e .value).run fresh = .error error fresh' := by
  simp only [operand, operandOf, run_bind_error]
  refine or_iff_left ?_
  rintro ⟨⟨value, code⟩, middle, hLower, hRun⟩
  obtain ⟨o, hOperand, -⟩ := serves_expr hLower
  obtain rfl : value = .operand o := hOperand
  cases hRun

/-- Lowering an expression for a condition fails only where lowering the expression does. What is left is
always an operand or a comparison. -/
theorem condition_error {e : Expr} :
    (condition scope e).run fresh = .error error fresh' ↔
      (expr scope e .condition).run fresh = .error error fresh' := by
  simp only [condition, conditionOf, run_bind_error]
  refine or_iff_left ?_
  rintro ⟨⟨value, code⟩, middle, hLower, hRun⟩
  obtain ⟨c, hTests, -⟩ := serves_expr hLower
  cases value with
  | operand o => cases hRun
  | binary op left right ty =>
      cases hComparison : op.isComparison with
      | true => simp [hComparison, EStateM.run_pure] at hRun
      | false => simp [condition?, hComparison] at hTests
  | _ => cases hTests

/-- A step whose failures are foreseen, from whatever numbers it starts. -/
def FailsForeseen {α : Type} (step : Lower α) : Prop :=
  ∀ ⦃fresh error fresh'⦄, step.run fresh = .error error fresh' → error.Foreseen

namespace FailsForeseen

variable {α β : Type}

theorem pure (a : α) : FailsForeseen (Pure.pure a : Lower α) := nofun

theorem unsupported (construct : String) : FailsForeseen (throw (.unsupported construct) : Lower α) := by
  rintro _ _ _ ⟨⟩ _ ⟨⟩

theorem unresolved (kind : SymbolKind) (name context : String) :
    FailsForeseen (throw (.unresolved kind name context) : Lower α) := by
  rintro _ _ _ ⟨⟩ _ ⟨⟩

theorem bind {step : Lower α} {next : α → Lower β} (hStep : FailsForeseen step)
    (hNext : ∀ a, FailsForeseen (next a)) : FailsForeseen (step >>= next) := by
  intro _ _ _ h
  rcases run_bind_error.mp h with hFirst | ⟨a, _, -, hLater⟩
  · exact hStep hFirst
  · exact hNext a hLater

theorem newTemp (scope : Scope) : FailsForeseen scope.newTemp := nofun

theorem finish (scope : Scope) (mayStay : Bool) (value : Instr) (code : List Instr) :
    FailsForeseen (finish scope mayStay value code) := by
  unfold Lowering.finish
  split
  · exact pure _
  · exact (newTemp scope).bind fun _ => pure _

theorem identifier (scope : Scope) (name : String) : FailsForeseen (identifier scope name) := by
  unfold Lowering.identifier
  split
  · exact pure _
  · split
    · exact finish ..
    · split
      · exact pure _
      · exact unresolved ..

theorem elementOf (base place : Operand) (ty : Code.Ty) : FailsForeseen (elementOf base place ty) := by
  unfold Lowering.elementOf
  split
  · exact pure _
  · exact unsupported _

/-- An array with too many values is the one failure within that is foreseen. There would have to be 2^31
of them in the text. -/
theorem fillArray (array : String) (values : List Operand) :
    FailsForeseen (fillArray array values) := by
  unfold Lowering.fillArray
  split
  · exact pure _
  · rintro _ _ _ ⟨⟩ _ ⟨⟩
    rfl

theorem callTarget (scope : Scope) (receiver : Expr) {object : Lower (Operand × List Instr)}
    (hObject : FailsForeseen object) : FailsForeseen (callTarget scope receiver object) := by
  unfold Lowering.callTarget
  split
  · exact pure _
  · exact hObject.bind fun _ => pure _

theorem collect (scope : Scope) (arity : Option Nat) (arguments : List Expr) (os : List Operand) :
    FailsForeseen (collect scope arity arguments os) := by
  unfold Lowering.collect
  split
  · exact pure _
  · split
    · exact pure _
    · exact (newTemp scope).bind fun array => (fillArray array _).bind fun _ => pure _

theorem finishCall (scope : Scope) (use : Use) (method : String) (call : Instr) (code : List Instr) :
    FailsForeseen (finishCall scope use method call code) := by
  unfold Lowering.finishCall
  split
  · exact pure _
  · exact pure _
  all_goals
    split
    · exact unsupported _
    · exact finish ..

variable {e : Expr} {use : Use}

/-- Asking for an operand brings in no failure beyond those of the expression. -/
theorem operand (he : ∀ use, FailsForeseen (expr scope e use)) :
    FailsForeseen (operandOf e (expr scope e .value)) :=
  fun _ _ _ h => he .value (operand_error.mp h)

theorem condition (he : ∀ use, FailsForeseen (expr scope e use)) :
    FailsForeseen (conditionOf e (expr scope e .condition)) :=
  fun _ _ _ h => he .condition (condition_error.mp h)

theorem operands {es : List Expr} (hes : ∀ e ∈ es, ∀ use, FailsForeseen (expr scope e use)) :
    FailsForeseen (operands scope es) := by
  induction es with
  | nil => exact pure _
  | cons e rest ih =>
      obtain ⟨he, hRest⟩ := List.forall_mem_cons.mp hes
      exact (operand he).bind fun _ => (ih hRest).bind fun _ => pure _

end FailsForeseen

/-- Lowering an expression fails by an inner limit only where an array has too many values. All other
failures name a part of the program. -/
theorem failsForeseen_expr (scope : Scope) (e : Expr) (use : Use) : FailsForeseen (expr scope e use) := by
  induction e generalizing use with
  | intLiteral | boolLiteral | self => exact .pure _
  | ident name ty => exact .identifier scope name
  | index base place ty hBase hPlace =>
      exact .bind (.operand hBase) fun _ => .bind (.operand hPlace) fun _ =>
        .bind (.elementOf ..) fun _ => .finish ..
  | paren inner ih => exact ih use
  | not operand ih => exact .bind (.operand ih) fun _ => .finish ..
  | newArray size ih => exact .bind (.operand ih) fun _ => .finish ..
  | newObject className => exact .bind (.newTemp scope) fun _ => .pure _
  | arrayLiteral elements ih =>
      exact .bind (.operands ih) fun _ => .bind (.newTemp scope) fun _ =>
        .bind (.fillArray ..) fun _ => .pure _
  | binary op left right ty hLeft hRight =>
      by_cases hOp : op = .and
      · subst hOp
        exact .bind (.condition hLeft) fun _ => .bind nofun fun _ => .bind (.newTemp scope) fun _ =>
          .bind (.operand hRight) fun _ => .pure _
      · rw [expr]
        · exact .bind (.operand hLeft) fun _ => .bind (.operand hRight) fun _ => .finish ..
        · exact hOp
  | call receiver method arguments ty hReceiver hArguments =>
      rw [expr]
      split
      · exact .bind (.operand hReceiver) fun _ => .finish ..
      · exact .bind (.callTarget scope receiver (.operand hReceiver)) fun _ =>
          .bind (.operands hArguments) fun _ => .bind (.collect ..) fun _ => .finishCall ..

end MiniJava.Lowering
