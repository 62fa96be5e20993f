import MiniJava.Proofs.Lowering.Runs
import MiniJava.Proofs.Source.Induction

/-! What lowered code is made of. An expression yields an instruction that has a value and makes no
object; objects are made in code of their own, where the constructor call follows the allocation. -/

namespace MiniJava.Lowering

open Code (Instr)

/-- The instruction that allocates a new object. -/
def allocation (object className : String) : Instr :=
  let ty := Code.Ty.object className
  .assign (.variable object ty) ty (.call .new (.classRef className) none [] ty)

/-- The constructor call on a new object. -/
def construction (object className : String) : Instr :=
  .call .invokeSpecial (.variable object (.object className)) (some "<init>") [] .void

/-- A new object is the allocation and the constructor call, with nothing in between. -/
theorem newObjectCode_eq (object className : String) :
    newObjectCode object className = [allocation object className, construction object className] :=
  rfl

end MiniJava.Lowering

namespace MiniJava.Code

/-- Whether the instruction neither makes an object nor calls a constructor. -/
def Instr.isPlain : Instr → Bool
  | .call .new _ _ _ returnType => returnType.isArray
  | .call .invokeSpecial _ _ _ _ => false
  | .assign _ _ rhs => rhs.isPlain
  | _ => true

/-- Whether the instruction has a value, makes no object and calls no constructor. -/
def Instr.isValue : Instr → Bool
  | .operand _ | .binary _ _ _ _ | .not _ _ | .getField _ _ _ => true
  | .call .new _ _ _ returnType => returnType.isArray
  | .call .invokeSpecial _ _ _ _ => false
  | .call _ _ _ _ _ => true
  | _ => false

theorem Instr.isPlain_of_isValue {i : Instr} (hValue : i.isValue = true) : i.isPlain = true := by
  cases i with
  | call kind receiver method arguments returnType =>
      cases kind <;> simp_all [isValue, isPlain]
  | assign dest ty rhs => cases hValue
  | _ => rfl

/-- Code in which the constructor of an object is called as soon as the object is there, and no
constructor is called otherwise. -/
inductive Complete : List Instr → Prop
  | nil : Complete []
  | single {i : Instr} {rest : List Instr} (hPlain : i.isPlain = true) (hRest : Complete rest) :
      Complete (i :: rest)
  | object (name className : String) {rest : List Instr} (hRest : Complete rest) :
      Complete (Lowering.newObjectCode name className ++ rest)

namespace Complete

variable {code rest : List Instr}

theorem append (hCode : Complete code) (hRest : Complete rest) : Complete (code ++ rest) := by
  induction hCode with
  | nil => exact hRest
  | single hPlain _ ih => exact .single hPlain ih
  | object name className _ ih =>
      rw [List.append_assoc]
      exact .object name className ih

theorem of_forall (hPlain : ∀ i ∈ code, i.isPlain = true) : Complete code := by
  induction code with
  | nil => exact .nil
  | cons i rest ih =>
      obtain ⟨hHead, hTail⟩ := List.forall_mem_cons.mp hPlain
      exact .single hHead (ih hTail)

theorem append_single {i : Instr} (hCode : Complete code) (hPlain : i.isPlain = true) :
    Complete (code ++ [i]) :=
  hCode.append (.single hPlain .nil)

end Complete

end MiniJava.Code

namespace MiniJava.Lowering

open Code (Complete Condition Instr Label Operand)
open Source (Expr Stmt)

variable {scope : Scope} {fresh fresh' : Fresh}

theorem isValue_finish {mayStay : Bool} {value : Instr} {code : List Instr} {l : Lowered}
    (hValue : value.isValue = true)
    (h : (finish scope mayStay value code).run fresh = .ok l fresh') : l.value.isValue = true := by
  rcases finish_run.mp h with ⟨_, rfl, _⟩ | ⟨_, _, _, rfl⟩
  · exact hValue
  · rfl

/-- What an expression leaves is an instruction with a value, so that no object is left unconstructed
between two phrases. -/
theorem isValue_expr {e : Expr} {use : Use} {l : Lowered}
    (h : (expr scope e use).run fresh = .ok l fresh') : l.value.isValue = true := by
  induction e generalizing fresh with
  | intLiteral value | boolLiteral value | self ty =>
      obtain ⟨rfl, _⟩ := run_pure_ok.mp h
      rfl
  | ident name ty =>
      rcases identifier_run.mp h with ⟨_, _, rfl, _⟩ | ⟨_, _, _, hRun⟩ | ⟨_, _, _, rfl, _⟩
      · rfl
      · exact isValue_finish rfl hRun
      · rfl
  | index base place ty =>
      obtain ⟨_, _, _, _, _, _, _, _, _, _, hRun⟩ := expr_index_run.mp h
      exact isValue_finish rfl hRun
  | paren inner hInner => exact hInner h
  | not operand =>
      obtain ⟨_, _, _, _, hRun⟩ := expr_not_run.mp h
      exact isValue_finish rfl hRun
  | newArray size =>
      obtain ⟨_, _, _, _, hRun⟩ := expr_newArray_run.mp h
      exact isValue_finish rfl hRun
  | newObject className =>
      obtain ⟨_, _, rfl⟩ := expr_newObject_run.mp h
      rfl
  | arrayLiteral elements =>
      obtain ⟨_, _, _, _, _, _, _, _, rfl⟩ := expr_arrayLiteral_run.mp h
      rfl
  | binary op left right ty =>
      by_cases hOp : op = .and
      · subst hOp
        obtain ⟨_, _, _, _, _, _, _, _, _, _, _, _, _, rfl⟩ := expr_and_run.mp h
        rfl
      · obtain ⟨_, _, _, _, _, _, _, _, hRun⟩ := (expr_binary_run hOp).mp h
        exact isValue_finish rfl hRun
  | call receiver method arguments ty =>
      cases hLength : asksLength receiver method arguments with
      | true =>
          obtain ⟨_, _, _, _, hRun⟩ := (expr_length_run hLength).mp h
          exact isValue_finish rfl hRun
      | false =>
          obtain ⟨kind, _, _, _, _, _, _, _, _, _, hTarget, _, _, hRun⟩ :=
            (expr_call_run hLength).mp h
          refine isValue_finish ?_ ((finishCall_run rfl).mp hRun).2
          rcases callTarget_run.mp hTarget with ⟨_, _, rfl, _⟩ | ⟨_, rfl, _⟩ <;> rfl

theorem complete_finish {mayStay : Bool} {value : Instr} {code : List Instr} {l : Lowered}
    (hCode : Complete code) (hValue : value.isValue = true)
    (h : (finish scope mayStay value code).run fresh = .ok l fresh') : Complete l.code := by
  rcases finish_run.mp h with ⟨_, rfl, _⟩ | ⟨_, _, _, rfl⟩
  · exact hCode
  · exact hCode.append_single (show value.isPlain = true from Instr.isPlain_of_isValue hValue)

theorem complete_fillArray {array : String} {values : List Operand} {code : List Instr}
    (h : (fillArray array values).run fresh = .ok code fresh') : Complete code := by
  obtain ⟨_, rfl, _⟩ := fillArray_run.mp h
  refine .single rfl (.of_forall fun i hi => ?_)
  obtain ⟨_, _, rfl⟩ := List.mem_mapIdx.mp hi
  rfl

theorem complete_operands_of {es : List Expr}
    (hParts : ∀ e ∈ es, ∀ {fresh fresh' use l}, (expr scope e use).run fresh = .ok l fresh' →
      Complete l.code) {values : List Operand} {code : List Instr}
    (h : (operands scope es).run fresh = .ok (values, code) fresh') : Complete code := by
  induction es generalizing fresh values code with
  | nil =>
      obtain ⟨_, rfl, _⟩ := operands_nil_run.mp h
      exact .nil
  | cons e rest ih =>
      obtain ⟨_, _, _, _, _, hFirst, hOthers, _, rfl⟩ := operands_cons_run.mp h
      have hHead := hParts e List.mem_cons_self (operand_run.mp hFirst)
      exact hHead.append (ih (fun e he => hParts e (List.mem_cons_of_mem _ he)) hOthers)

theorem complete_collect {arity : Option Nat} {arguments : List Expr} {os values : List Operand}
    {code : List Instr}
    (h : (collect scope arity arguments os).run fresh = .ok (values, code) fresh') :
    Complete code := by
  rcases collect_run.mp h with ⟨_, _, rfl, _⟩ | ⟨_, _, _, _, _, hFill, _⟩
  · exact .nil
  · exact complete_fillArray hFill

/-- In the code of an expression every object is constructed at once, by induction on the expression. -/
theorem complete_expr {e : Expr} {use : Use} {l : Lowered}
    (h : (expr scope e use).run fresh = .ok l fresh') : Complete l.code := by
  induction e generalizing use fresh fresh' l with
  | intLiteral value | boolLiteral value | self ty =>
      obtain ⟨rfl, _⟩ := run_pure_ok.mp h
      exact .nil
  | ident name ty =>
      rcases identifier_run.mp h with ⟨_, _, rfl, _⟩ | ⟨_, _, _, hRun⟩ | ⟨_, _, _, rfl, _⟩
      · exact .nil
      · exact complete_finish .nil rfl hRun
      · exact .nil
  | index base place ty hBase hPlace =>
      obtain ⟨_, _, _, _, _, _, _, hLowerBase, hLowerPlace, _, hRun⟩ := expr_index_run.mp h
      exact complete_finish
        ((hBase (operand_run.mp hLowerBase)).append (hPlace (operand_run.mp hLowerPlace))) rfl hRun
  | paren inner hInner => exact hInner h
  | not operand hOperand =>
      obtain ⟨_, _, _, hLower, hRun⟩ := expr_not_run.mp h
      exact complete_finish (hOperand (operand_run.mp hLower)) rfl hRun
  | newArray size hSize =>
      obtain ⟨_, _, _, hLower, hRun⟩ := expr_newArray_run.mp h
      exact complete_finish (hSize (operand_run.mp hLower)) rfl hRun
  | newObject className =>
      obtain ⟨name, _, rfl⟩ := expr_newObject_run.mp h
      exact .object name className .nil
  | arrayLiteral elements hElements =>
      obtain ⟨_, _, _, _, _, hLower, _, hFill, rfl⟩ := expr_arrayLiteral_run.mp h
      exact (complete_operands_of hElements hLower).append (complete_fillArray hFill)
  | binary op left right ty hLeft hRight =>
      by_cases hOp : op = .and
      · subst hOp
        obtain ⟨_, _, _, _, _, _, _, _, _, hLowerLeft, _, _, hLowerRight, rfl⟩ :=
          expr_and_run.mp h
        obtain ⟨_, hTest, _⟩ := condition_run.mp hLowerLeft
        have hInner := hRight (operand_run.mp hLowerRight)
        refine (hLeft hTest).append (.append (.append (.of_forall ?_) hInner) (.of_forall ?_))
        · simp [Instr.isPlain]
        · simp [Instr.isPlain]
      · obtain ⟨_, _, _, _, _, _, hLowerLeft, hLowerRight, hRun⟩ := (expr_binary_run hOp).mp h
        exact complete_finish
          ((hLeft (operand_run.mp hLowerLeft)).append (hRight (operand_run.mp hLowerRight)))
          rfl hRun
  | call receiver method arguments ty hReceiver hArguments =>
      cases hLength : asksLength receiver method arguments with
      | true =>
          obtain ⟨_, _, _, hLower, hRun⟩ := (expr_length_run hLength).mp h
          exact complete_finish (hReceiver (operand_run.mp hLower)) rfl hRun
      | false =>
          obtain ⟨kind, _, targetCode, _, _, _, _, _, _, _, hTarget, hLower, hCollect, hRun⟩ :=
            (expr_call_run hLength).mp h
          have hTargetCode : Complete targetCode ∧ (kind = .invokeStatic ∨ kind = .invokeVirtual) := by
            rcases callTarget_run.mp hTarget with ⟨_, _, rfl, _, rfl, _⟩ | ⟨_, rfl, hObject⟩
            · exact ⟨.nil, .inl rfl⟩
            · exact ⟨hReceiver (operand_run.mp hObject), .inr rfl⟩
          refine complete_finish ((hTargetCode.1.append (complete_operands_of hArguments hLower)).append
            (complete_collect hCollect)) ?_ ((finishCall_run rfl).mp hRun).2
          rcases hTargetCode.2 with rfl | rfl <;> rfl

theorem complete_operand {e : Expr} {o : Operand} {code : List Instr}
    (h : (operand scope e).run fresh = .ok (o, code) fresh') : Complete code :=
  complete_expr (operand_run.mp h)

theorem complete_condition {e : Expr} {c : Condition} {code : List Instr}
    (h : (condition scope e).run fresh = .ok (c, code) fresh') : Complete code := by
  obtain ⟨_, hLower, _⟩ := condition_run.mp h
  exact complete_expr hLower

theorem complete_discarded {l : Lowered} (hCode : Complete l.code)
    (hValue : l.value.isValue = true) : Complete (discarded l) := by
  unfold discarded
  split
  · exact hCode
  · exact hCode.append_single (Instr.isPlain_of_isValue hValue)

theorem complete_assign {target value : Expr} {code : List Instr}
    (h : (assign scope target value).run fresh = .ok code fresh') : Complete code := by
  rcases assign_run.mp h with ⟨name, _, _, hName⟩ | ⟨base, place, ty, _, hElement⟩
  · rcases assignName_run.mp hName with ⟨_, rhs, _, hLower, rfl⟩ | ⟨_, _, _, _, _, hLower, rfl⟩
    · have hRhs : rhs.value.isPlain = true := Instr.isPlain_of_isValue (isValue_expr hLower)
      exact (complete_expr hLower).append_single hRhs
    · exact (complete_operand hLower).append_single rfl
  · obtain ⟨rhs, _, _, _, _, _, _, _, hValue, hBase, hPlace, _, rfl⟩ := assignElement_run.mp hElement
    have hRhs : rhs.value.isPlain = true := Instr.isPlain_of_isValue (isValue_expr hValue)
    exact (((complete_expr hValue).append (complete_operand hBase)).append
      (complete_operand hPlace)).append_single hRhs

theorem complete_ret {value : Option Expr} {code : List Instr}
    (h : (ret scope value).run fresh = .ok code fresh') : Complete code := by
  cases value with
  | none =>
      obtain ⟨rfl, _⟩ := ret_none_run.mp h
      exact .single rfl .nil
  | some e =>
      obtain ⟨_, _, hLower, rfl⟩ := ret_some_run.mp h
      exact (complete_operand hLower).append_single rfl

theorem complete_stmts_of {ss : List Stmt}
    (hParts : ∀ s ∈ ss, ∀ {fresh fresh' code}, (stmt scope s).run fresh = .ok code fresh' →
      Complete code) {code : List Instr}
    (h : (stmts scope ss).run fresh = .ok code fresh') : Complete code := by
  induction ss generalizing fresh code with
  | nil =>
      obtain ⟨rfl, _⟩ := stmts_nil_run.mp h
      exact .nil
  | cons s rest ih =>
      obtain ⟨_, _, _, hHead, hRest, rfl⟩ := stmts_cons_run.mp h
      exact (hParts s List.mem_cons_self hHead).append
        (ih (fun s hs => hParts s (List.mem_cons_of_mem _ hs)) hRest)

theorem complete_conditional {labels : Label × Label} {test : Condition}
    {thenCode elseCode : List Instr} (hThen : Complete thenCode) (hElse : Complete elseCode) :
    Complete (conditional labels test thenCode elseCode) := by
  have hMiddle : Complete (.goto labels.2 :: .label labels.1 :: thenCode) :=
    .single rfl (.single rfl hThen)
  exact .append (.single rfl (hElse.append hMiddle)) (.single rfl .nil)

theorem complete_whileLoop {labels : Label × Label} {entry again : Condition}
    {body other : List Instr} (hBody : Complete body) (hAgain : Complete other) :
    Complete (whileLoop labels entry body (again, other)) := by
  have hStart : Complete (.branch entry labels.1 :: .goto labels.2 :: .label labels.1 :: body) :=
    .single rfl (.single rfl (.single rfl hBody))
  exact (hStart.append hAgain).append (.single rfl (.single rfl .nil))

/-- In the code of a statement every object is constructed at once, by induction on the statement. -/
theorem complete_stmt {s : Stmt} {code : List Instr}
    (h : (stmt scope s).run fresh = .ok code fresh') : Complete code := by
  induction s generalizing fresh code fresh' with
  | block statements hParts => exact complete_stmts_of hParts h
  | cond test thenBranch elseBranch hThen hElse =>
      obtain ⟨_, _, _, _, _, _, _, _, hTest, _, hLowerElse, hLowerThen, rfl⟩ := stmt_cond_run.mp h
      refine (complete_condition hTest).append (complete_conditional (hThen hLowerThen) ?_)
      cases elseBranch with
      | none =>
          obtain ⟨rfl, _⟩ := run_pure_ok.mp hLowerElse
          exact .nil
      | some s => exact hElse s rfl hLowerElse
  | loop test body hBody =>
      obtain ⟨_, _, _, _, _, _, _, _, _, hTest, _, hLower, hAgain, rfl⟩ := stmt_loop_run.mp h
      exact (complete_condition hTest).append
        (complete_whileLoop (hBody hLower) (complete_condition hAgain))
  | assign target value => exact complete_assign h
  | ret value => exact complete_ret h
  | eval e =>
      obtain ⟨_, hLower, rfl⟩ := stmt_eval_run.mp h
      exact complete_discarded (complete_expr hLower) (isValue_expr hLower)

/-- The code of a method, with or without a return added at its end, is complete: each allocation has its
constructor call right behind it. -/
theorem complete_method {symbols : Source.SymbolTable} {m : Source.MethodDecl}
    {lowered : Code.Method} (h : (method symbols m).run fresh = .ok lowered fresh') :
    Complete lowered.body := by
  obtain ⟨_, _, _, hBody, rfl⟩ := method_run.mp h
  have hStatements := complete_stmts_of (fun _ _ => complete_stmt) hBody
  unfold closed
  split
  · exact hStatements.append_single rfl
  · exact hStatements

theorem complete_methods {symbols : Source.SymbolTable} {ms : List Source.MethodDecl}
    {lowered : List Code.Method} (h : (methods symbols ms).run fresh = .ok lowered fresh') :
    ∀ m ∈ lowered, Complete m.body := by
  induction ms generalizing fresh lowered with
  | nil =>
      obtain ⟨rfl, _⟩ := methods_nil_run.mp h
      simp
  | cons m rest ih =>
      obtain ⟨_, _, _, hFirst, hRest, rfl⟩ := methods_cons_run.mp h
      exact List.forall_mem_cons.mpr ⟨complete_method hFirst, ih hRest⟩

/-- In a class that was lowered, no object is left without its constructor. The emission relies on this
when it leaves the object on the stack. -/
theorem complete_ofProgram {withConstructor : Bool} {program : Source.Program}
    {unit : Code.ClassUnit} (h : ofProgram withConstructor program = .ok unit) :
    ∀ m ∈ unit.methods, Complete m.body := by
  obtain ⟨_, _, hMethods, rfl⟩ := ofProgram_ok.mp h
  exact complete_methods hMethods

end MiniJava.Lowering
