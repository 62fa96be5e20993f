import MiniJava.Proofs.Lowering.Runs
import MiniJava.Proofs.Source.Within

/-! Lowering brings forth code of a few forms, with no names and types but those of the program. How an
expression is used decides what its value may be. -/

namespace MiniJava.Lowering

open Code (CallKind CodeFormed Condition Instr Label Operand Vocabulary)
open Source (AllWithin Expr MethodDecl Program Signature Stmt StmtsWithin SymbolTable)

variable {v : Vocabulary} {scope : Scope} {fresh fresh' : Fresh}

/-- The names and types that a method and its class declare belong to the vocabulary. What an expression
mentions is asked for apart, since it may name other classes. -/
structure Scope.Within (v : Vocabulary) (scope : Scope) : Prop where
  classTy : v.ty (.object scope.symbols.className)
  fields : ∀ d ∈ scope.symbols.fields, d.Within v
  parameters : ∀ d ∈ scope.method.parameters, d.Within v
  locals : ∀ d ∈ scope.method.locals, d.Within v
  returnType : v.ty (.ofSource scope.method.returnType)

namespace Scope.Within

variable (hScope : scope.Within v)

include hScope

theorem self : scope.self.Simple v := .self hScope.classTy

theorem variableTy {name : String} {d : Source.Declaration}
    (h : scope.method.lookup? name = some d) : v.ty (.ofSource d.ty) := by
  rcases Option.or_eq_some_iff.mp h with hLocal | ⟨-, hParameter⟩
  · exact (hScope.locals d (List.mem_of_find?_eq_some hLocal)).ty
  · exact (hScope.parameters d (List.mem_of_find?_eq_some hParameter)).ty

theorem fieldTy {name : String} {d : Source.Declaration}
    (h : scope.symbols.visibleField? scope.method.name name = some d) : v.ty (.ofSource d.ty) := by
  unfold SymbolTable.visibleField? at h
  split at h
  · cases h
  · exact (hScope.fields d (List.mem_of_find?_eq_some h)).ty

end Scope.Within

theorem newTemp_within {name : String} (h : scope.newTemp.run fresh = .ok name fresh') :
    v.name name := by
  obtain ⟨rfl, rfl⟩ := EStateM.Result.ok.inj ((newTemp_run scope fresh).symm.trans h)
  exact v.temp _

/-- What the value of an expression may be, by its use. A value that is not used is an operand, which
does nothing, or a call. -/
def Serves (v : Vocabulary) : Use → Instr → Prop
  | .value, value => ∃ o, value = .operand o ∧ o.Simple v
  | .assignRhs, value => value.Rhs v
  | .condition, value => ∃ c, condition? value = some c ∧ c.Formed v
  | .discard, value => (∃ o, value = .operand o ∧ o.Simple v) ∨ value.Invocation v

theorem serves_operand {o : Operand} (h : o.Simple v) (use : Use) : Serves v use (.operand o) := by
  cases use with
  | value => exact ⟨o, rfl, h⟩
  | assignRhs => exact .operand (.simple h)
  | condition => exact ⟨_, rfl, .single h⟩
  | discard => exact .inl ⟨o, rfl, h⟩

/-- The code of an expression is of the forms of lowered code, and its value serves the use. A value for
an assignment has more freedom than one that is an operand. -/
structure Lowered.Formed (v : Vocabulary) (use : Use) (l : Lowered) : Prop where
  code : CodeFormed v l.code
  value : Serves v use l.value

theorem formed_operand {o : Operand} (h : o.Simple v) (use : Use) :
    (Lowered.ofOperand o).Formed v use := ⟨.nil, serves_operand h use⟩

/-- A value that may not stay goes to a temporary, which serves every use. One that may stay must serve
the use by itself. -/
theorem formed_finish {use : Use} {mayStay : Bool} {value : Instr} {code : List Instr} {l : Lowered}
    (hValue : value.Rhs v) (hTy : v.ty value.valueType) (hStay : mayStay = true → Serves v use value)
    (hCode : CodeFormed v code) (h : (finish scope mayStay value code).run fresh = .ok l fresh') :
    l.Formed v use := by
  rcases finish_run.mp h with ⟨hKept, rfl, -⟩ | ⟨-, name, hTemp, rfl⟩
  · refine ⟨hCode, ?_⟩
    rcases Bool.or_eq_true_iff.mp hKept with hMay | hPlain
    · exact hStay hMay
    · cases hValue with
      | operand hFlat =>
          cases hFlat with
          | simple hSimple => exact serves_operand hSimple use
          | element => cases hPlain
      | invocation hCall => cases hCall with | call => cases hPlain
      | _ => cases hPlain
  · have hName : v.name name := newTemp_within hTemp
    exact ⟨hCode.snoc (.assign (.variable hName hTy) hTy hValue),
      serves_operand (.variable hName hTy) use⟩

/-- A value that may stay only where it is assigned. -/
theorem formed_finishRhs {use : Use} {value : Instr} {code : List Instr} {l : Lowered}
    (hValue : value.Rhs v) (hTy : v.ty value.valueType) (hCode : CodeFormed v code)
    (h : (finish scope (use = .assignRhs) value code).run fresh = .ok l fresh') : l.Formed v use := by
  refine formed_finish hValue hTy (fun hRhs => ?_) hCode h
  obtain rfl := of_decide_eq_true hRhs
  exact hValue

/-- The code and the value of the expression are of the forms of lowered code, for every use. This is
what induction over expressions carries. -/
def LowersFormed (v : Vocabulary) (scope : Scope) (e : Expr) : Prop :=
  ∀ ⦃use fresh l fresh'⦄, (expr scope e use).run fresh = .ok l fresh' → l.Formed v use

namespace LowersFormed

variable {e : Expr}

theorem operand (he : LowersFormed v scope e) {o : Operand} {code : List Instr}
    (h : (operand scope e).run fresh = .ok (o, code) fresh') : o.Simple v ∧ CodeFormed v code := by
  obtain ⟨hCode, other, hSame, hSimple⟩ := he (operand_run.mp h)
  obtain rfl := Instr.operand.inj hSame
  exact ⟨hSimple, hCode⟩

theorem condition (he : LowersFormed v scope e) {c : Condition} {code : List Instr}
    (h : (condition scope e).run fresh = .ok (c, code) fresh') : c.Formed v ∧ CodeFormed v code := by
  obtain ⟨_, hLower, hTests⟩ := condition_run.mp h
  obtain ⟨hCode, other, hSame, hFormed⟩ := he hLower
  obtain rfl := Option.some.inj (hTests.symm.trans hSame)
  exact ⟨hFormed, hCode⟩

theorem operands {es : List Expr} (hes : ∀ e ∈ es, LowersFormed v scope e) {os : List Operand}
    {code : List Instr} (h : (operands scope es).run fresh = .ok (os, code) fresh') :
    (∀ o ∈ os, o.Simple v) ∧ CodeFormed v code := by
  induction es generalizing fresh os code with
  | nil =>
      obtain ⟨rfl, rfl, -⟩ := operands_nil_run.mp h
      exact ⟨nofun, .nil⟩
  | cons e rest ih =>
      obtain ⟨_, _, _, _, _, hFirst, hOthers, rfl, rfl⟩ := operands_cons_run.mp h
      obtain ⟨he, hRest⟩ := List.forall_mem_cons.mp hes
      obtain ⟨hSimple, hCode⟩ := he.operand hFirst
      obtain ⟨hOperands, hRestCode⟩ := ih hRest hOthers
      exact ⟨List.forall_mem_cons.mpr ⟨hSimple, hOperands⟩, hCode.append hRestCode⟩

end LowersFormed

theorem formed_fillArray {array : String} {values : List Operand} {code : List Instr}
    (hArray : v.name array) (hValues : ∀ o ∈ values, o.Simple v)
    (h : (fillArray array values).run fresh = .ok code fresh') : CodeFormed v code := by
  obtain ⟨-, rfl, -⟩ := fillArray_run.mp h
  refine .cons (.assign (.variable hArray v.intArray) v.intArray (.newArray (.literal _ v.int32)))
    fun i hi => ?_
  obtain ⟨place, hPlace, rfl⟩ := List.mem_mapIdx.mp hi
  exact .assign (.element hArray (.literal _ v.int32) v.int32) v.int32
    (.operand (.simple (hValues _ (List.getElem_mem hPlace))))

theorem formed_newObjectCode {object className : String} (hObject : v.name object)
    (hClass : v.name className) (hTy : v.ty (.object className)) :
    CodeFormed v (newObjectCode object className) :=
  .cons (.assign (.variable hObject hTy) hTy (.newObject hClass hTy))
    (.cons (.invocation
      (.call ⟨nofun, nofun⟩ (.variable hObject hTy) (.inr rfl) nofun v.void)) .nil)

/-- Collecting passes on simple operands, the new array as the last of them. Its code stores simple
operands into items. -/
theorem formed_collect {arity : Option Nat} {arguments : List Expr} {os values : List Operand}
    {code : List Instr} (hOperands : ∀ o ∈ os, o.Simple v)
    (h : (collect scope arity arguments os).run fresh = .ok (values, code) fresh') :
    (∀ o ∈ values, o.Simple v) ∧ CodeFormed v code := by
  rcases collect_run.mp h with ⟨-, rfl, rfl, -⟩ | ⟨_, array, -, -, hTemp, hFill, rfl⟩
  · exact ⟨hOperands, .nil⟩
  · have hArray : v.name array := newTemp_within hTemp
    have hDropped := formed_fillArray hArray (fun o ho => hOperands o (List.mem_of_mem_drop ho)) hFill
    refine ⟨List.forall_mem_append.mpr ⟨fun o ho => hOperands o (List.mem_of_mem_take ho), ?_⟩, hDropped⟩
    exact List.forall_mem_singleton.mpr (.variable hArray v.intArray)

theorem formed_shortCircuit {labels : Label × Label} {result : String} {test : Condition}
    {o : Operand} {code : List Instr} (hResult : v.name result) (hTest : test.Formed v)
    (hOperand : o.Simple v) (hCode : CodeFormed v code) :
    CodeFormed v (shortCircuit labels (.variable result .boolean) test (o, code)) := by
  have hStore {value : Operand} (hValue : value.Simple v) :
      (Instr.assign (.variable result .boolean) .boolean (.operand value)).Formed v :=
    .assign (.variable hResult v.boolean) v.boolean (.operand (.simple hValue))
  have hSkip : CodeFormed v [.branch test labels.1,
      .assign (.variable result .boolean) .boolean (.operand (.bool false)), .goto labels.2,
      .label labels.1] :=
    .cons (.branch hTest _) (.cons (hStore (.literal _ v.boolean)) (.cons (.goto _) (.cons (.label _) .nil)))
  exact (hSkip.append hCode).append (.cons (hStore hOperand) (.cons (.label _) .nil))

/-- The kind and the target of a call. A class that is called by its name is named by the receiver. -/
theorem formed_callTarget {receiver : Expr} {kind : CallKind} {target : Operand} {code : List Instr}
    (hReceiver : LowersFormed v scope receiver) (hWithin : receiver.Within v)
    (h : (callTarget scope receiver (operand scope receiver)).run fresh =
      .ok (kind, target, code) fresh') :
    (kind ≠ .new ∧ kind ≠ .arrayLength) ∧ target.Simple v ∧ CodeFormed v code := by
  rcases callTarget_run.mp h with ⟨className, hStatic, rfl, rfl, rfl, -⟩ | ⟨-, rfl, hObject⟩
  · refine ⟨⟨nofun, nofun⟩, .classRef ?_, .nil⟩
    rw [← Source.within_bare] at hWithin
    unfold Scope.staticTarget? at hStatic
    split at hStatic
    · rename_i name ty hBare
      split at hStatic
      · obtain rfl := Option.some.inj hStatic
        rw [hBare] at hWithin
        exact hWithin.1
      · cases hStatic
    · cases hStatic
  · exact ⟨⟨nofun, nofun⟩, hReceiver.operand hObject⟩

theorem operation_ne_and {op : Source.BinaryOp} (h : op ≠ .and) : operation op ≠ .and := by
  cases op <;> simp_all [operation]

/-- A name becomes a variable, a class or a temporary with the value of a field. None of these is an item
of an array. -/
theorem formed_identifier {name : String} {use : Use} {l : Lowered} (hScope : scope.Within v)
    (hName : v.name name) (h : (identifier scope name).run fresh = .ok l fresh') : l.Formed v use := by
  rcases identifier_run.mp h with ⟨_, hLookup, rfl, -⟩ | ⟨_, -, hField, hFinish⟩ | ⟨-, -, -, rfl, -⟩
  · exact formed_operand (.variable hName (hScope.variableTy hLookup)) use
  · have hTy := hScope.fieldTy hField
    refine formed_finish (.getField hScope.self hName hTy) hTy (fun hStay => ?_) .nil hFinish
    cases hStay
  · exact formed_operand (.classRef hName) use

theorem formed_binary {op : Source.BinaryOp} {left right : Expr} {ty : Source.Ty} (hOp : op ≠ .and)
    (hLeft : LowersFormed v scope left) (hRight : LowersFormed v scope right)
    (hTy : v.ty (.ofSource ty)) : LowersFormed v scope (.binary op left right ty) := by
  intro use _ _ _ h
  obtain ⟨a, _, _, b, _, _, hLowerLeft, hLowerRight, hFinish⟩ := (expr_binary_run hOp).mp h
  obtain ⟨ha, hLeftCode⟩ := hLeft.operand hLowerLeft
  obtain ⟨hb, hRightCode⟩ := hRight.operand hLowerRight
  have hValue : (Instr.binary (operation op) a b (.ofSource ty)).Rhs v :=
    .binary (operation_ne_and hOp) ha hb hTy
  refine formed_finish hValue hTy (fun hStay => ?_) (hLeftCode.append hRightCode) hFinish
  cases use with
  | assignRhs => exact hValue
  | condition => exact ⟨_, if_pos hStay, .compare hStay ha hb⟩
  | value | discard => cases hStay

theorem formed_call {receiver : Expr} {method : String} {arguments : List Expr} {ty : Source.Ty}
    (hReceiver : LowersFormed v scope receiver) (hArguments : ∀ e ∈ arguments, LowersFormed v scope e)
    (hWithin : receiver.Within v) (hMethod : v.name method) (hTy : v.ty (.ofSource ty))
    (hLength : asksLength receiver method arguments = false) :
    LowersFormed v scope (.call receiver method arguments ty) := by
  intro use _ _ _ h
  obtain ⟨kind, target, _, _, _, _, _, values, _, _, hTarget, hLower, hCollect, hFinish⟩ :=
    (expr_call_run hLength).mp h
  obtain ⟨hKind, hSimple, hTargetCode⟩ := formed_callTarget hReceiver hWithin hTarget
  obtain ⟨hOperands, hArgumentCode⟩ := LowersFormed.operands hArguments hLower
  obtain ⟨hValues, hCollectCode⟩ := formed_collect hOperands hCollect
  have hCall : (Instr.call kind target (some method) values (.ofSource ty)).Invocation v :=
    .call hKind hSimple (.inl hMethod) hValues hTy
  refine formed_finish (.invocation hCall) hTy (fun hStay => ?_)
    ((hTargetCode.append hArgumentCode).append hCollectCode) ((finishCall_run rfl).mp hFinish).2
  rcases of_decide_eq_true hStay with rfl | rfl
  · exact .invocation hCall
  · exact .inr hCall

theorem lowersFormed (hScope : scope.Within v) {e : Expr} (he : e.Within v) :
    LowersFormed v scope e := by
  induction e with
  | intLiteral value =>
      intro use _ _ _ h
      obtain ⟨rfl, -⟩ := run_pure_ok.mp h
      exact formed_operand (.literal value v.int32) use
  | boolLiteral value =>
      intro use _ _ _ h
      obtain ⟨rfl, -⟩ := run_pure_ok.mp h
      exact formed_operand (.literal _ v.boolean) use
  | ident name ty => exact fun _ _ _ _ h => formed_identifier hScope he.1 h
  | self ty =>
      intro use _ _ _ h
      obtain ⟨rfl, -⟩ := run_pure_ok.mp h
      exact formed_operand hScope.self use
  | index base place ty hBase hPlace =>
      intro use _ _ _ h
      obtain ⟨hBaseWithin, hPlaceWithin, hTy⟩ := he
      obtain ⟨o, _, _, _, _, _, array, hLowerBase, hLowerPlace, hArray, hFinish⟩ := expr_index_run.mp h
      obtain ⟨ho, hBaseCode⟩ := (hBase hBaseWithin).operand hLowerBase
      obtain ⟨hi, hPlaceCode⟩ := (hPlace hPlaceWithin).operand hLowerPlace
      have hName : v.name array := by
        cases ho with
        | «variable» hName _ =>
            obtain rfl := Option.some.inj hArray
            exact hName
        | _ => cases hArray
      exact formed_finishRhs (.operand (.element hName hi hTy)) hTy (hBaseCode.append hPlaceCode) hFinish
  | paren inner ih => exact ih he
  | not operand ih =>
      intro use _ _ _ h
      obtain ⟨_, _, _, hLower, hFinish⟩ := expr_not_run.mp h
      obtain ⟨ho, hCode⟩ := (ih he).operand hLower
      exact formed_finishRhs (.not ho) v.boolean hCode hFinish
  | newArray size ih =>
      intro use _ _ _ h
      obtain ⟨_, _, _, hLower, hFinish⟩ := expr_newArray_run.mp h
      obtain ⟨ho, hCode⟩ := (ih he).operand hLower
      exact formed_finishRhs (.newArray ho) v.intArray hCode hFinish
  | newObject className =>
      intro use _ _ _ h
      obtain ⟨object, hTemp, rfl⟩ := expr_newObject_run.mp h
      have hObject : v.name object := newTemp_within hTemp
      exact ⟨formed_newObjectCode hObject he.1 he.2, serves_operand (.variable hObject he.2) use⟩
  | arrayLiteral elements ih =>
      intro use _ _ _ h
      obtain ⟨_, _, _, array, _, hLower, hTemp, hFill, rfl⟩ := expr_arrayLiteral_run.mp h
      have hElements := Source.allWithin_iff.mp he
      have hArray : v.name array := newTemp_within hTemp
      obtain ⟨hValues, hCode⟩ :=
        LowersFormed.operands (fun e hMem => ih e hMem (hElements e hMem)) hLower
      exact ⟨hCode.append (formed_fillArray hArray hValues hFill),
        serves_operand (.variable hArray v.intArray) use⟩
  | binary op left right ty hLeft hRight =>
      obtain ⟨hLeftWithin, hRightWithin, hTy⟩ := he
      by_cases hOp : op = .and
      · subst hOp
        intro use _ _ _ h
        obtain ⟨_, _, _, _, _, result, _, _, _, hLowerLeft, -, hTemp, hLowerRight, rfl⟩ :=
          expr_and_run.mp h
        have hResult : v.name result := newTemp_within hTemp
        obtain ⟨hTest, hLeftCode⟩ := (hLeft hLeftWithin).condition hLowerLeft
        obtain ⟨ho, hRightCode⟩ := (hRight hRightWithin).operand hLowerRight
        exact ⟨hLeftCode.append (formed_shortCircuit hResult hTest ho hRightCode),
          serves_operand (.variable hResult v.boolean) use⟩
      · exact formed_binary hOp (hLeft hLeftWithin) (hRight hRightWithin) hTy
  | call receiver method arguments ty hReceiver hArguments =>
      obtain ⟨hReceiverWithin, hMethod, hArgumentsWithin, hTy⟩ := he
      have hEach := Source.allWithin_iff.mp hArgumentsWithin
      cases hLength : asksLength receiver method arguments with
      | true =>
          intro use _ _ _ h
          obtain ⟨_, _, _, hLower, hFinish⟩ := (expr_length_run hLength).mp h
          obtain ⟨ho, hCode⟩ := (hReceiver hReceiverWithin).operand hLower
          exact formed_finishRhs (.arrayLength ho) v.int32 hCode hFinish
      | false =>
          exact formed_call (hReceiver hReceiverWithin)
            (fun e hMem => hArguments e hMem (hEach e hMem)) hReceiverWithin hMethod hTy hLength

/-- A value that is dropped stands as an instruction only if it is a call, for an operand has nothing to
do. -/
theorem formed_discarded {l : Lowered} (h : l.Formed v .discard) : CodeFormed v (discarded l) := by
  obtain ⟨value, code⟩ := l
  rcases h.value with ⟨o, hOperand, -⟩ | hCall
  · obtain rfl : value = .operand o := hOperand
    exact h.code
  · cases hCall with
    | call hKind hTarget hMethod hArguments hTy =>
        exact h.code.snoc (.invocation (.call hKind hTarget hMethod hArguments hTy))

theorem formed_conditional {labels : Label × Label} {test : Condition} {thenCode elseCode : List Instr}
    (hTest : test.Formed v) (hThen : CodeFormed v thenCode) (hElse : CodeFormed v elseCode) :
    CodeFormed v (conditional labels test thenCode elseCode) := by
  have hBranch : CodeFormed v (.branch test labels.1 :: elseCode) := .cons (.branch hTest _) hElse
  exact (hBranch.append (.cons (.goto _) (.cons (.label _) hThen))).append (.cons (.label _) .nil)

theorem formed_whileLoop {labels : Label × Label} {entry again : Condition} {body test : List Instr}
    (hEntry : entry.Formed v) (hBody : CodeFormed v body) (hAgain : again.Formed v)
    (hTest : CodeFormed v test) : CodeFormed v (whileLoop labels entry body (again, test)) := by
  have hStart : CodeFormed v (.branch entry labels.1 :: .goto labels.2 :: .label labels.1 :: body) :=
    .cons (.branch hEntry _) (.cons (.goto _) (.cons (.label _) hBody))
  exact (hStart.append hTest).append (.cons (.branch hAgain _) (.cons (.label _) .nil))

/-- An assignment stores to a variable, to an item of an array variable or to a field. Only the first two
may end in more than an operand. -/
theorem formed_assign {target value : Expr} {code : List Instr} (hScope : scope.Within v)
    (hTarget : target.Within v) (hValue : value.Within v)
    (h : (assign scope target value).run fresh = .ok code fresh') : CodeFormed v code := by
  rw [← Source.within_bare] at hTarget
  rcases assign_run.mp h with ⟨name, _, hBare, hName⟩ | ⟨base, place, ty, hBare, hElement⟩
  · rw [hBare] at hTarget
    rcases assignName_run.mp hName with ⟨_, _, hLookup, hLower, rfl⟩ | ⟨_, _, _, -, hField, hLower, rfl⟩
    · have hTy := hScope.variableTy hLookup
      have hRhs := lowersFormed hScope hValue hLower
      exact hRhs.code.snoc (.assign (.variable hTarget.1 hTy) hTy hRhs.value)
    · obtain ⟨ho, hCode⟩ := (lowersFormed hScope hValue).operand hLower
      exact hCode.snoc (.putField hScope.self hTarget.1 (hScope.fieldTy hField) ho)
  · rw [hBare] at hTarget
    obtain ⟨hBaseWithin, hPlaceWithin, hTy⟩ := hTarget
    obtain ⟨_, _, o, _, _, _, _, array, hLower, hBase, hPlace, hArray, rfl⟩ :=
      assignElement_run.mp hElement
    have hRhs := lowersFormed hScope hValue hLower
    obtain ⟨ho, hBaseCode⟩ := (lowersFormed hScope hBaseWithin).operand hBase
    obtain ⟨hi, hPlaceCode⟩ := (lowersFormed hScope hPlaceWithin).operand hPlace
    have hName : v.name array := by
      cases ho with
      | «variable» hName _ =>
          obtain rfl := Option.some.inj hArray
          exact hName
      | _ => cases hArray
    exact ((hRhs.code.append hBaseCode).append hPlaceCode).snoc
      (.assign (.element hName hi hTy) hTy hRhs.value)

theorem formed_ret {value : Option Expr} {code : List Instr} (hScope : scope.Within v)
    (hValue : ∀ e ∈ value, e.Within v) (h : (ret scope value).run fresh = .ok code fresh') :
    CodeFormed v code := by
  cases value with
  | none =>
      obtain ⟨rfl, -⟩ := ret_none_run.mp h
      exact .cons (.ret nofun hScope.returnType) .nil
  | some e =>
      obtain ⟨o, _, hLower, rfl⟩ := ret_some_run.mp h
      obtain ⟨ho, hCode⟩ := (lowersFormed hScope (hValue e rfl)).operand hLower
      refine hCode.snoc (.ret (fun other hOther => ?_) hScope.returnType)
      obtain rfl := Option.some.inj hOther
      exact ho

/-- From the parts to the whole of a list of statements. -/
theorem formed_stmts_of {ss : List Stmt}
    (hParts : ∀ s ∈ ss, ∀ ⦃fresh code fresh'⦄, (stmt scope s).run fresh = .ok code fresh' →
      CodeFormed v code) {code : List Instr} (h : (stmts scope ss).run fresh = .ok code fresh') :
    CodeFormed v code := by
  induction ss generalizing fresh code with
  | nil =>
      obtain ⟨rfl, -⟩ := stmts_nil_run.mp h
      exact .nil
  | cons s rest ih =>
      obtain ⟨_, _, _, hHead, hRest, rfl⟩ := stmts_cons_run.mp h
      obtain ⟨hs, hOthers⟩ := List.forall_mem_cons.mp hParts
      exact (hs hHead).append (ih hOthers hRest)

/-- The code of a statement is of the forms of lowered code, by induction on the statement. What
conditionals and loops add are branches, jumps and labels. -/
theorem formed_stmt (hScope : scope.Within v) {s : Stmt} (hs : s.Within v) :
    ∀ ⦃fresh code fresh'⦄, (stmt scope s).run fresh = .ok code fresh' → CodeFormed v code := by
  induction s with
  | block statements ih =>
      have hEach := Source.stmtsWithin_iff.mp hs
      exact fun _ _ _ h => formed_stmts_of (fun s hMem => ih s hMem (hEach s hMem)) h
  | cond test thenBranch elseBranch hThen hElse =>
      intro _ _ _ h
      obtain ⟨hTestWithin, hThenWithin, hElseWithin⟩ := hs
      obtain ⟨_, _, _, _, _, elseCode, _, _, hTest, -, hLowerElse, hLowerThen, rfl⟩ := stmt_cond_run.mp h
      obtain ⟨hCondition, hTestCode⟩ := (lowersFormed hScope hTestWithin).condition hTest
      have hElseCode : CodeFormed v elseCode := by
        cases elseBranch with
        | none =>
            obtain ⟨rfl, -⟩ := run_pure_ok.mp hLowerElse
            exact .nil
        | some s => exact hElse s rfl (Source.optionalWithin_iff.mp hElseWithin s rfl) hLowerElse
      exact hTestCode.append (formed_conditional hCondition (hThen hThenWithin hLowerThen) hElseCode)
  | loop test body hBody =>
      intro _ _ _ h
      obtain ⟨_, _, _, _, _, _, _, _, _, hEntry, -, hLower, hAgain, rfl⟩ := stmt_loop_run.mp h
      have hTest := lowersFormed hScope hs.1
      obtain ⟨hEntryTest, hEntryCode⟩ := hTest.condition hEntry
      obtain ⟨hAgainTest, hAgainCode⟩ := hTest.condition hAgain
      exact hEntryCode.append (formed_whileLoop hEntryTest (hBody hs.2 hLower) hAgainTest hAgainCode)
  | assign target value => exact fun _ _ _ h => formed_assign hScope hs.1 hs.2 h
  | ret value => exact fun _ _ _ h => formed_ret hScope hs h
  | eval e =>
      intro _ _ _ h
      obtain ⟨_, hLower, rfl⟩ := stmt_eval_run.mp h
      exact formed_discarded (lowersFormed hScope hs hLower)

/-- A name stands for the first method of that name, whose declarations belong to the vocabulary as all
others do. -/
theorem scope_within {program : Program} (hProgram : program.Within v) {name : String}
    {signature : Signature} (h : (SymbolTable.ofProgram program).method? name = some signature) :
    (⟨.ofProgram program, signature⟩ : Scope).Within v := by
  obtain ⟨m, hm, rfl⟩ := List.mem_map.mp (List.mem_of_find?_eq_some h)
  have hMethod := hProgram.methods m hm
  exact ⟨hProgram.classTy, hProgram.fields, hMethod.parameters, hMethod.locals, hMethod.returnType⟩

theorem variableOf_within {d : Source.Declaration} (h : d.Within v) : (variableOf d).Within v :=
  ⟨h.name, h.ty⟩

theorem forall_variableOf_within {ds : List Source.Declaration} (h : ∀ d ∈ ds, d.Within v) :
    ∀ x ∈ ds.map variableOf, x.Within v :=
  List.forall_mem_map.mpr fun d hd => variableOf_within (h d hd)

theorem formed_closed {m : Code.Method} (h : m.Formed v) : (closed m).Formed v := by
  unfold closed
  split
  · exact { h with body := h.body.snoc (.ret nofun v.void) }
  · exact h

/-- A method of a program within the vocabulary is lowered to one of these forms, with a head whose names
and types are within it as well. -/
theorem formed_method {program : Program} (hProgram : program.Within v) {m : MethodDecl}
    (hm : m.Within v) {lowered : Code.Method}
    (h : (method (.ofProgram program) m).run fresh = .ok lowered fresh') : lowered.Formed v := by
  obtain ⟨_, _, hSignature, hBody, rfl⟩ := method_run.mp h
  have hScope := scope_within hProgram hSignature
  have hEach := Source.stmtsWithin_iff.mp hm.body
  exact formed_closed {
    name := hm.name
    parameters := forall_variableOf_within hm.parameters
    returnType := hm.returnType
    body := formed_stmts_of (fun s hs => formed_stmt hScope (hEach s hs)) hBody }

theorem formed_methods {program : Program} (hProgram : program.Within v) {ms : List MethodDecl}
    (hms : ∀ m ∈ ms, m.Within v) {lowered : List Code.Method}
    (h : (methods (.ofProgram program) ms).run fresh = .ok lowered fresh') :
    ∀ m ∈ lowered, m.Formed v := by
  induction ms generalizing fresh lowered with
  | nil =>
      obtain ⟨rfl, -⟩ := methods_nil_run.mp h
      exact nofun
  | cons m rest ih =>
      obtain ⟨_, _, _, hFirst, hRest, rfl⟩ := methods_cons_run.mp h
      obtain ⟨hm, hOthers⟩ := List.forall_mem_cons.mp hms
      exact List.forall_mem_cons.mpr ⟨formed_method hProgram hm hFirst, ih hOthers hRest⟩

/-- A class that was lowered has the forms of lowered code throughout and mentions nothing but what its
program does. -/
theorem formed_ofProgram {withConstructor : Bool} {program : Program} {unit : Code.ClassUnit}
    (hProgram : program.Within v) (h : ofProgram withConstructor program = .ok unit) : unit.Formed v := by
  obtain ⟨_, _, hMethods, rfl⟩ := ofProgram_ok.mp h
  refine ⟨hProgram.className, hProgram.superClass, fun path hPath => ?_,
    forall_variableOf_within hProgram.fields, formed_methods hProgram hProgram.methods hMethods⟩
  obtain ⟨segments, hSegments, rfl⟩ := List.mem_map.mp hPath
  exact ⟨segments, hProgram.imports segments hSegments, rfl⟩

end MiniJava.Lowering
