import MiniJava.Proofs.Lowering.References

/-! How the code of a phrase ends: by leaving the method, by going on, or not at all where there is no
code. Only the code of a return statement leaves the method at its end, since that of a conditional and
that of a loop end in a label. -/

namespace MiniJava

/-- Whether the last of the items, if there are any, has the property. Nothing is said where there are
none, which lets pieces of code be put together. -/
def lastIs? {α : Type} (p : α → Bool) (items : List α) : Option Bool := items.getLast?.map p

section

variable {α : Type} (p : α → Bool)

@[simp] theorem lastIs?_nil : lastIs? p [] = none := rfl

@[simp] theorem lastIs?_append (items rest : List α) :
    lastIs? p (items ++ rest) = (lastIs? p rest).or (lastIs? p items) := by
  rw [lastIs?, List.getLast?_append, Option.map_or]
  rfl

@[simp] theorem lastIs?_singleton (a : α) : lastIs? p [a] = some (p a) := rfl

theorem lastIs?_of_forall {items : List α} (h : ∀ a ∈ items, p a = false) (hSome : items ≠ []) :
    lastIs? p items = some false := by
  rw [lastIs?, List.getLast?_eq_some_getLast hSome, Option.map_some, h _ (List.getLast_mem hSome)]

end

/-- Whether control never goes on to the next instruction. A branch may go on, and so it is none. -/
def Code.Instr.isExit : Code.Instr → Bool
  | .goto _ | .ret _ _ => true
  | _ => false

end MiniJava

namespace MiniJava.Source

open Lowering (Scope)

section

variable (scope : Scope)

/-- Whether an expression has code where its value is not used. Nothing needs to be done for a constant,
for a variable and for the receiver of the method. -/
def Expr.hasCode (e : Expr) : Bool :=
  match e.bare with
  | .intLiteral _ | .boolLiteral _ | .self _ => false
  | .ident name _ =>
      match meaning scope name with
      | .field _ => true
      | _ => false
  | _ => true

mutual

/-- Whether a statement, if it has code, is a return statement, or a block that ends in one. The code of
a conditional or of a loop ends in a label, whatever is inside. -/
def Stmt.exits? : Stmt → Option Bool
  | .block statements => stmtsExit? statements
  | .cond _ _ _ | .loop _ _ | .assign _ _ => some false
  | .ret _ => some true
  | .eval e => if e.hasCode scope then some false else none
termination_by structural s => s

/-- The last statement with code decides about a list of statements. Those behind it leave nothing at the
end of the code. -/
def stmtsExit? : List Stmt → Option Bool
  | [] => none
  | s :: rest => (stmtsExit? rest).or s.exits?
termination_by structural ss => ss

end

end

mutual

/-- Whether every way through a statement comes to a return statement. The test of a loop may fail at
once, so a loop is not counted on. -/
def Stmt.returns : Stmt → Bool
  | .block statements => stmtsReturn statements
  | .cond _ thenBranch elseBranch => thenBranch.returns && optionalReturns elseBranch
  | .loop _ _ | .assign _ _ | .eval _ => false
  | .ret _ => true
termination_by structural s => s

/-- A missing branch returns on no way, since control passes it by. -/
def optionalReturns : Option Stmt → Bool
  | none => false
  | some s => s.returns
termination_by structural o => o

/-- A list of statements returns if one of them does, since control does not come beyond it. What stands
behind that one is not looked at. -/
def stmtsReturn : List Stmt → Bool
  | [] => false
  | s :: rest => s.returns || stmtsReturn rest
termination_by structural ss => ss

end

end MiniJava.Source

namespace MiniJava.Lowering

open Code (Instr)
open Source (Expr MethodDecl Program Stmt SymbolTable meaning stmtsExit?)

variable {scope : Scope} {fresh fresh' : Fresh} {code : List Instr}

/-- A value that is dropped ends with its code or with the value, and neither leaves the method. -/
theorem exits?_finish {value : Instr} {l : Lowered} (hValue : isPlain value = false)
    (h : (finish scope false value code).run fresh = .ok l fresh') :
    lastIs? Instr.isExit (discarded l) = some false := by
  rcases finish_run.mp h with ⟨hMay, _⟩ | ⟨_, name, _, rfl⟩
  · simp [hValue] at hMay
  · simp [discarded, Instr.isExit]

theorem exits?_fillArray {array : String} {values : List Code.Operand}
    (h : (fillArray array values).run fresh = .ok code fresh') :
    lastIs? Instr.isExit code = some false := by
  obtain ⟨_, rfl, _⟩ := fillArray_run.mp h
  refine lastIs?_of_forall _ (List.forall_mem_cons.mpr ⟨rfl, fun i hi => ?_⟩) (List.cons_ne_nil _ _)
  obtain ⟨_, _, rfl⟩ := eq_assign_of_mem_storeItems hi
  rfl

/-- The code of an expression whose value is dropped goes on at its end, if there is any. It may be
missing, and then what stands before decides. -/
theorem discarded_exits? (hKnown : scope.Known) {e : Expr} {l : Lowered}
    (h : (expr scope e .discard).run fresh = .ok l fresh') :
    lastIs? Instr.isExit (discarded l) = if e.hasCode scope then some false else none := by
  induction e with
  | intLiteral | boolLiteral | self =>
      obtain ⟨rfl, rfl⟩ := run_pure_ok.mp h
      rfl
  | ident name ty =>
      rcases identifier_run.mp h with ⟨d, hLookup, rfl, rfl⟩ | ⟨d, hLookup, hField, hFinish⟩ |
        ⟨hLookup, hField, hClass, rfl, rfl⟩
      · simp [Expr.hasCode, Expr.bare, meaning_variable hLookup, discarded, Lowered.ofOperand]
      · rw [exits?_finish rfl hFinish]
        simp [Expr.hasCode, Expr.bare, meaning_field hKnown hLookup hField]
      · simp [Expr.hasCode, Expr.bare, meaning_class hKnown hLookup hField hClass, discarded,
          Lowered.ofOperand]
  | paren inner ih => exact ih h
  | index base place ty =>
      obtain ⟨_, _, _, _, _, _, _, _, _, _, hFinish⟩ := expr_index_run.mp h
      exact exits?_finish rfl hFinish
  | not operand =>
      obtain ⟨_, _, _, _, hFinish⟩ := expr_not_run.mp h
      exact exits?_finish rfl hFinish
  | newArray size =>
      obtain ⟨_, _, _, _, hFinish⟩ := expr_newArray_run.mp h
      exact exits?_finish rfl hFinish
  | newObject className =>
      obtain ⟨object, _, rfl⟩ := expr_newObject_run.mp h
      rfl
  | arrayLiteral elements =>
      obtain ⟨_, _, _, _, _, _, _, hFill, rfl⟩ := expr_arrayLiteral_run.mp h
      rw [discarded, lastIs?_append, exits?_fillArray hFill]
      rfl
  | binary op left right ty =>
      by_cases hOp : op = .and
      · subst hOp
        obtain ⟨_, _, _, _, _, _, _, _, _, _, _, _, _, rfl⟩ := expr_and_run.mp h
        rw [discarded, lastIs?_append, shortCircuit, lastIs?_append]
        rfl
      · obtain ⟨_, _, _, _, _, _, _, _, hFinish⟩ := (expr_binary_run hOp).mp h
        exact exits?_finish rfl hFinish
  | call receiver method arguments ty =>
      cases hLength : asksLength receiver method arguments with
      | true =>
          obtain ⟨_, _, _, _, hFinish⟩ := (expr_length_run hLength).mp h
          exact exits?_finish rfl hFinish
      | false =>
          obtain ⟨_, _, _, _, _, _, _, _, _, _, _, _, _, hFinish⟩ := (expr_call_run hLength).mp h
          obtain ⟨rfl, -⟩ := run_pure_ok.mp hFinish
          rw [discarded, lastIs?_append]
          · rfl
          · rintro _ ⟨⟩

theorem assign_exits? {target value : Expr}
    (h : (assign scope target value).run fresh = .ok code fresh') :
    lastIs? Instr.isExit code = some false := by
  rcases assign_run.mp h with ⟨name, _, _, hName⟩ | ⟨_, _, _, _, hElement⟩
  · rcases assignName_run.mp hName with ⟨_, _, _, _, rfl⟩ | ⟨_, _, _, _, _, _, rfl⟩ <;>
      rw [lastIs?_append] <;> rfl
  · obtain ⟨_, _, _, _, _, _, _, _, _, _, _, _, rfl⟩ := assignElement_run.mp hElement
    rw [lastIs?_append]
    rfl

theorem ret_exits? {value : Option Expr} (h : (ret scope value).run fresh = .ok code fresh') :
    lastIs? Instr.isExit code = some true := by
  cases value with
  | none =>
      obtain ⟨rfl, -⟩ := ret_none_run.mp h
      rfl
  | some e =>
      obtain ⟨_, _, _, rfl⟩ := ret_some_run.mp h
      rw [lastIs?_append]
      rfl

/-- The code of a conditional ends in the label behind it, even if both branches return. -/
theorem exits?_conditional (labels : Code.Label × Code.Label) (c : Code.Condition)
    (thenCode elseCode : List Instr) :
    lastIs? Instr.isExit (conditional labels c thenCode elseCode) = some false := by
  rw [conditional, lastIs?_append]
  rfl

theorem exits?_whileLoop (labels : Code.Label × Code.Label) (entry : Code.Condition)
    (body : List Instr) (again : Code.Condition × List Instr) :
    lastIs? Instr.isExit (whileLoop labels entry body again) = some false := by
  rw [whileLoop, lastIs?_append]
  rfl

/-- The last statement with code decides about the code of a list of statements as well, once each
statement decides about its own. -/
theorem stmts_exits?_of_forall {ss : List Stmt}
    (hss : ∀ s ∈ ss, ∀ ⦃fresh code fresh'⦄, (stmt scope s).run fresh = .ok code fresh' →
      lastIs? Instr.isExit code = s.exits? scope)
    (h : (stmts scope ss).run fresh = .ok code fresh') :
    lastIs? Instr.isExit code = stmtsExit? scope ss := by
  induction ss generalizing fresh code with
  | nil =>
      obtain ⟨rfl, -⟩ := stmts_nil_run.mp h
      rfl
  | cons s rest ih =>
      obtain ⟨_, _, _, hHead, hRest, rfl⟩ := stmts_cons_run.mp h
      obtain ⟨hs, hRestStmts⟩ := List.forall_mem_cons.mp hss
      rw [lastIs?_append, ih hRestStmts hRest, hs hHead, stmtsExit?]

/-- Whether the code of a statement leaves the method at its end can be read off the statement. -/
theorem stmt_exits? (hKnown : scope.Known) (s : Stmt) :
    ∀ ⦃fresh code fresh'⦄, (stmt scope s).run fresh = .ok code fresh' →
      lastIs? Instr.isExit code = s.exits? scope := by
  induction s with
  | block statements ih => exact fun _ _ _ h => stmts_exits?_of_forall ih h
  | cond test thenBranch elseBranch _ _ =>
      intro _ _ _ h
      obtain ⟨_, _, _, _, _, _, _, _, _, _, _, _, rfl⟩ := stmt_cond_run.mp h
      rw [lastIs?_append, exits?_conditional]
      rfl
  | loop test body _ =>
      intro _ _ _ h
      obtain ⟨_, _, _, _, _, _, _, _, _, _, _, _, _, rfl⟩ := stmt_loop_run.mp h
      rw [lastIs?_append, exits?_whileLoop]
      rfl
  | assign target value => exact fun _ _ _ h => assign_exits? h
  | ret value => exact fun _ _ _ h => ret_exits? h
  | eval e =>
      intro _ _ _ h
      obtain ⟨_, hLower, rfl⟩ := stmt_eval_run.mp h
      exact discarded_exits? hKnown hLower

theorem exits?_closed (m : Code.Method) :
    lastIs? Instr.isExit (closed m).body =
      if m.returnType.isVoid then some true else lastIs? Instr.isExit m.body := by
  unfold closed
  cases m.returnType.isVoid with
  | false => rfl
  | true =>
      cases hEnd : m.endsWithReturn with
      | false => exact lastIs?_append _ m.body [.ret none .void]
      | true =>
          obtain ⟨last, hLast, hReturn⟩ := (Option.any_eq_true _ _).mp hEnd
          change lastIs? Instr.isExit m.body = some true
          rw [lastIs?, hLast]
          cases last with
          | ret => rfl
          | _ => cases hReturn

/-- The code of a method leaves it at its end where the method is void, and else where the last of its
statements with code does. -/
theorem method_exits? {program : Program} {m : MethodDecl} {lowered : Code.Method}
    (h : (method (.ofProgram program) m).run fresh = .ok lowered fresh') :
    lastIs? Instr.isExit lowered.body =
      if m.returnType = .void then some true else stmtsExit? (m.namedScope program) m.body := by
  obtain ⟨hKnown, body, hLower, rfl⟩ := method_namedScope h
  rw [exits?_closed, stmts_exits?_of_forall (fun s _ => stmt_exits? hKnown s) hLower]
  exact if_congr (isVoid_ofSource m.returnType) rfl rfl

end MiniJava.Lowering
