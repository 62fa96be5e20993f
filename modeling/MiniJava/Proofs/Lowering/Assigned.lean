import MiniJava.Proofs.Code.Assigned
import MiniJava.Proofs.Lowering.Runs

/-! Lowered code reads nothing unassigned. The parameters and locals of a method count as assigned
from the start; every other variable that the code of a phrase reads is assigned in it before, on all
ways. -/

namespace MiniJava.Lowering

open Code (Assigns CallKind Condition Instr Label Operand OwnLabels assigned)
open Source (Expr Stmt)

variable {scope : Scope} {fresh fresh' : Fresh}

/-- The parameters and locals of the method. They have values when the body begins, so they count as
assigned from the start. -/
def Scope.declared (scope : Scope) : Set String := {name | (scope.method.lookup? name).isSome = true}

/-- The variables that an instruction names, as a set. Order and number are of no account for whether
they are assigned. -/
def named (i : Instr) : Set String := {name | name ∈ i.names}

section Composite

variable {own : Label × Label} {o : Operand} {test again : Condition} {code other : List Instr}
  {pre mid : Set String} {first middle last : Nat}

/-- Two labels of a number may have any facts beside those of the labels of greater number. This is how
the labels of a conditional are given theirs, after those of its parts. -/
theorem exists_extension (atLabel : Label → Set String) {x y : Label} (atX atY : Set String)
    (hxy : x ≠ y) (hx : x.id = first) (hy : y.id = first) :
    ∃ atLabel' : Label → Set String, atLabel' x = atX ∧ atLabel' y = atY ∧
      ∀ {last : Nat} {code : List Instr}, OwnLabels (first + 1) last code →
        ∀ l ∈ Code.labels code, atLabel' l = atLabel l := by
  refine ⟨fun l => if l = x then atX else if l = y then atY else atLabel l, if_pos rfl,
    (if_neg (Ne.symm hxy)).trans (if_pos rfl), fun hOwn l hl => ?_⟩
  have hBounds := hOwn.bounds l hl
  have hNotX : l ≠ x := by
    rintro rfl
    omega
  have hNotY : l ≠ y := by
    rintro rfl
    omega
  exact (if_neg hNotX).trans (if_neg hNotY)

/-- The code of `&&` assigns its result on both ways to its end, so that the result may be read there. -/
theorem assigns_shortCircuit {name : String} {ty : Code.Ty}
    (hOwn : own = (⟨.ifBody, first⟩, ⟨.endIf, first⟩)) (hTest : ∀ read ∈ test.names, read ∈ pre)
    (hRight : Assigns pre code (named (.operand o))) (hLabels : OwnLabels (first + 1) last code) :
    Assigns pre (shortCircuit own (.variable name ty) test (o, code)) {name} := by
  subst hOwn
  intro known hKnown
  obtain ⟨atCode, between, hFlows, hBetween⟩ := hRight known hKnown
  obtain ⟨atLabel, hBody, hEnd, hInner⟩ := exists_extension atCode known (insert name known)
    (x := ⟨.ifBody, first⟩) (y := ⟨.endIf, first⟩) (by simp) rfl rfl
  refine ⟨atLabel, some (insert name known), ?_, ?_⟩
  · have hStart : assigned.Flows atLabel (some known) [.branch test ⟨.ifBody, first⟩,
        .assign (.variable name ty) .boolean (.operand (.bool false)), .goto ⟨.endIf, first⟩,
        .label ⟨.ifBody, first⟩] (some known) := by
      refine Code.flows_branch hBody.le (fun read hRead => hKnown (hTest read hRead))
        (Code.flows_assign nofun (Code.flows_goto ?_ (Code.flows_label nofun ?_)))
      · rintro _ ⟨⟩
        exact hEnd.le
      · rw [hBody]
        exact .nil _
    have hStop : assigned.Flows atLabel between
        [.assign (.variable name ty) .boolean (.operand o), .label ⟨.endIf, first⟩]
        (some (insert name known)) := by
      cases between with
      | none =>
          refine .skip rfl (Code.flows_label nofun ?_)
          rw [hEnd]
          exact .nil _
      | some facts =>
          obtain ⟨hStill, hNew⟩ := hBetween facts rfl
          refine Code.flows_assign (fun read hRead => hNew hRead) (Code.flows_label ?_ ?_)
          · rintro _ ⟨⟩
            rw [hEnd]
            exact Set.insert_subset_insert hStill
          · rw [hEnd]
            exact .nil _
    exact (hStart.append (hLabels.flows hFlows (hInner hLabels))).append hStop
  · rintro _ ⟨⟩
    exact ⟨Set.subset_insert _ _, Set.singleton_subset_iff.mpr (Set.mem_insert _ _)⟩

/-- The code of a conditional reads nothing unassigned if its branches do not. Nothing is taken to be
assigned at its end, for either branch may have been skipped. -/
theorem assigns_conditional (hOwn : own = (⟨.ifBody, first⟩, ⟨.endIf, first⟩))
    (hTest : ∀ read ∈ test.names, read ∈ pre) (hElse : Assigns pre other ∅)
    (hThen : Assigns pre code ∅) (hElseLabels : OwnLabels (first + 1) middle other)
    (hThenLabels : OwnLabels middle last code) :
    Assigns pre (conditional own test code other) ∅ := by
  subst hOwn
  intro known hKnown
  obtain ⟨atElse, afterElse, hFlowsElse, hAfterElse⟩ := hElse known hKnown
  obtain ⟨atThen, afterThen, hFlowsThen, hAfterThen⟩ := hThen known hKnown
  have hNone : OwnLabels (first + 1) middle [] := .straight hElseLabels.le rfl rfl
  have hThenLabels' : OwnLabels (first + 1) last code := hNone.append hThenLabels
  obtain ⟨atLabel, hBody, hEnd, hInner⟩ := exists_extension
    (fun l => if l ∈ Code.labels other then atElse l else atThen l) known known
    (x := ⟨.ifBody, first⟩) (y := ⟨.endIf, first⟩) (by simp) rfl rfl
  refine ⟨atLabel, some known, ?_, ?_⟩
  · have hOther : assigned.Flows atLabel (some known) other afterElse :=
      hElseLabels.flows hFlowsElse fun l hl => (hInner hElseLabels l hl).trans (if_pos hl)
    have hCode : assigned.Flows atLabel (some known) code afterThen := by
      refine hThenLabels.flows hFlowsThen fun l hl => (hInner hThenLabels' l hl).trans (if_neg ?_)
      intro hl'
      have hBelow := hElseLabels.bounds l hl'
      have hAbove := hThenLabels.bounds l hl
      omega
    have hMiddle : assigned.Flows atLabel afterElse [.goto ⟨.endIf, first⟩, .label ⟨.ifBody, first⟩]
        (some known) := by
      refine Code.flows_goto (fun facts hFacts => ?_) (Code.flows_label nofun ?_)
      · rw [hEnd]
        exact (hAfterElse facts hFacts).1
      · rw [hBody]
        exact .nil _
    have hStop : assigned.Flows atLabel afterThen [.label ⟨.endIf, first⟩] (some known) := by
      refine Code.flows_label (fun facts hFacts => ?_) ?_
      · rw [hEnd]
        exact (hAfterThen facts hFacts).1
      · rw [hEnd]
        exact .nil _
    have hRest := hOther.append (hMiddle.append (hCode.append hStop))
    simpa [conditional] using
      Code.flows_branch hBody.le (fun read hRead => hKnown (hTest read hRead)) hRest
  · rintro _ ⟨⟩
    exact ⟨le_refl _, Set.empty_subset _⟩

/-- The code of a loop reads nothing unassigned if its parts do not. What the body reads must have been
assigned before each round, also the first one. -/
theorem assigns_whileLoop (hOwn : own = (⟨.whileBody, first⟩, ⟨.endWhile, first⟩))
    (hTest : ∀ read ∈ test.names, read ∈ pre) (hBody : Assigns pre code ∅)
    (hAgain : Assigns pre other {name | name ∈ again.names})
    (hBodyLabels : OwnLabels (first + 1) middle code) (hAgainLabels : OwnLabels middle last other) :
    Assigns pre (whileLoop own test code (again, other)) ∅ := by
  subst hOwn
  intro known hKnown
  have hRound : Assigns pre (code ++ other) {name | name ∈ again.names} :=
    (hBody.append (hAgain.weaken Set.subset_union_left Set.subset_union_right) hBodyLabels
      hAgainLabels).weaken (le_refl _) (by rw [Set.empty_union]; exact Set.subset_union_right)
  have hLabels := hBodyLabels.append hAgainLabels
  obtain ⟨atRound, after, hFlows, hAfter⟩ := hRound known hKnown
  obtain ⟨atLabel, hStart, hEnd, hInner⟩ := exists_extension atRound known known
    (x := ⟨.whileBody, first⟩) (y := ⟨.endWhile, first⟩) (by simp) rfl rfl
  refine ⟨atLabel, some known, ?_, ?_⟩
  · have hEnter : assigned.Flows atLabel (some known) [.branch test ⟨.whileBody, first⟩,
        .goto ⟨.endWhile, first⟩, .label ⟨.whileBody, first⟩] (some known) := by
      refine Code.flows_branch hStart.le (fun read hRead => hKnown (hTest read hRead))
        (Code.flows_goto ?_ (Code.flows_label nofun ?_))
      · rintro _ ⟨⟩
        exact hEnd.le
      · rw [hStart]
        exact .nil _
    have hRepeat : assigned.Flows atLabel after
        [.branch again ⟨.whileBody, first⟩, .label ⟨.endWhile, first⟩] (some known) := by
      have hStop : ∀ facts : Set String, known ⊆ facts →
          assigned.Flows atLabel (some facts) [.label ⟨.endWhile, first⟩] (some known) := by
        intro facts hFacts
        refine Code.flows_label ?_ ?_
        · rintro _ ⟨⟩
          rw [hEnd]
          exact hFacts
        · rw [hEnd]
          exact .nil _
      cases after with
      | none =>
          refine .skip rfl (Code.flows_label nofun ?_)
          rw [hEnd]
          exact .nil _
      | some facts =>
          obtain ⟨hStill, hNew⟩ := hAfter facts rfl
          exact Code.flows_branch (hStart.le.trans hStill) (fun read hRead => hNew hRead)
            (hStop facts hStill)
    have hAll := hEnter.append ((hLabels.flows hFlows (hInner hLabels)).append hRepeat)
    simpa [whileLoop] using hAll
  · rintro _ ⟨⟩
    exact ⟨le_refl _, Set.empty_subset _⟩

end Composite

/-- The code of an expression reads nothing unassigned, and its value names nothing unassigned
afterwards. The expression may be lowered for any use and from any numbers. -/
def ReadsAssigned (scope : Scope) (e : Expr) : Prop :=
  ∀ (use : Use) (fresh : Fresh) (l : Lowered) (fresh' : Fresh),
    (expr scope e use).run fresh = .ok l fresh' → Assigns scope.declared l.code (named l.value)

section Expressions

variable {pre mid post : Set String} {code rest : List Instr}

/-- Code after code, both of which start from what is declared. What the first assigns is still assigned
after the second, since nothing is ever unassigned. -/
theorem assigns_append (hCode : Assigns pre code mid) (hRest : Assigns pre rest post)
    {first middle last : Nat} (hOwnCode : OwnLabels first middle code)
    (hOwnRest : OwnLabels middle last rest) : Assigns pre (code ++ rest) (mid ∪ post) :=
  hCode.append (hRest.weaken Set.subset_union_left Set.subset_union_right) hOwnCode hOwnRest

/-- An instruction after code that assigns what it reads. -/
theorem assigns_snoc {first last : Nat} (hCode : Assigns pre code mid)
    (hOwn : OwnLabels first last code) (i : Instr) (hLabel : i.label? = none)
    (hTarget : i.target? = none) (hReads : ∀ name ∈ i.reads, name ∈ pre ∪ mid) :
    Assigns pre (code ++ [i]) (mid ∪ {name | i.writes? = some name}) :=
  hCode.append (.instr i hLabel hTarget hReads) hOwn
    (.straight (Nat.le_refl _) (by rw [Code.labels_cons, hLabel]; rfl)
      (by rw [Code.targets_cons, hTarget]; rfl))

theorem assigns_finish {mayStay : Bool} {value : Instr} {l : Lowered} {first last : Nat}
    (hCode : Assigns scope.declared code mid) (hOwn : OwnLabels first last code)
    (hNames : ∀ name ∈ value.names, name ∈ scope.declared ∪ mid)
    (h : (finish scope mayStay value code).run fresh = .ok l fresh') :
    Assigns scope.declared l.code (named l.value) := by
  rcases finish_run.mp h with ⟨_, rfl, _⟩ | ⟨_, name, _, rfl⟩
  · exact hCode.weaken (le_refl _) hNames
  · refine (assigns_snoc hCode hOwn (.assign (.variable name value.valueType) value.valueType value)
      rfl rfl hNames).weaken (le_refl _) ?_
    intro read hRead
    obtain rfl := List.mem_singleton.mp hRead
    exact .inr (.inr rfl)

/-- Filling an array reads the values and the array only. -/
theorem assigns_fillArray {array : String} {values : List Operand}
    (hValues : ∀ o ∈ values, ∀ name ∈ o.names, name ∈ pre)
    (h : (fillArray array values).run fresh = .ok code fresh') : Assigns pre code {array} := by
  obtain ⟨hLabels, hTargets⟩ := straight_fillArray h
  obtain ⟨_, rfl, _⟩ := fillArray_run.mp h
  rw [Code.labels_cons] at hLabels
  rw [Code.targets_cons] at hTargets
  have hNew : Assigns pre [_] _ := .instr (.assign (.variable array .intArray) .intArray
    (newIntArray (.int (.ofNat values.length)))) rfl rfl nofun
  have hStores : Assigns (pre ∪ {array}) (storeItems array 0 values) ∅ := by
    refine .straight hLabels hTargets fun i hi name hName => ?_
    obtain ⟨place, hPlace, rfl⟩ := List.mem_mapIdx.mp hi
    rcases List.mem_cons.mp hName with rfl | hValue
    · exact .inr rfl
    · exact .inl (hValues _ (List.getElem_mem hPlace) name hValue)
  refine (hNew.append (hStores.weaken ?_ (Set.empty_subset _)) (.straight (Nat.le_refl 0) rfl rfl)
    (.straight (Nat.le_refl 0) hLabels hTargets)).weaken (le_refl _) ?_
  · exact Set.union_subset_union_right _ (Set.singleton_subset_iff.mpr rfl)
  · rintro _ rfl
    exact .inr (.inl rfl)

theorem ReadsAssigned.operand {e : Expr} (he : ReadsAssigned scope e) {o : Operand}
    (h : (operand scope e).run fresh = .ok (o, code) fresh') :
    Assigns scope.declared code (named (.operand o)) :=
  he _ _ _ _ (operand_run.mp h)

theorem ReadsAssigned.condition {e : Expr} (he : ReadsAssigned scope e) {c : Condition}
    (h : (condition scope e).run fresh = .ok (c, code) fresh') :
    Assigns scope.declared code {name | name ∈ c.names} := by
  obtain ⟨value, hLower, hCondition⟩ := condition_run.mp h
  have hNames : c.names = value.names := by
    cases value <;> simp only [condition?, reduceCtorEq] at hCondition
    · cases hCondition
      rfl
    · split at hCondition <;> cases hCondition
      rfl
  rw [hNames]
  exact he _ _ _ _ hLower

/-- Operands that were found earlier stay assigned while later ones are found, since nothing is ever
taken away from what is assigned. -/
theorem ReadsAssigned.operands {es : List Expr} (hes : ∀ e ∈ es, ReadsAssigned scope e)
    {values : List Operand} (h : (operands scope es).run fresh = .ok (values, code) fresh') :
    Assigns scope.declared code {name | name ∈ values.flatMap Operand.names} := by
  induction es generalizing fresh values code with
  | nil =>
      obtain ⟨rfl, rfl, _⟩ := operands_nil_run.mp h
      exact .nil nofun
  | cons e rest ih =>
      obtain ⟨hHead, hRest⟩ := List.forall_mem_cons.mp hes
      obtain ⟨o, headCode, fresh₁, os, restCode, hFirst, hOthers, rfl, rfl⟩ := operands_cons_run.mp h
      refine (assigns_append (hHead.operand hFirst) (ih hRest hOthers) (ownLabels_operand hFirst)
        (ownLabels_operands hOthers)).weaken (le_refl _) ?_
      intro name hName
      rw [List.flatMap_cons] at hName
      exact .inr (List.mem_append.mp hName)

/-- Collecting arguments reads the operands only, and passes on nothing unassigned. The array is assigned
before its items are stored. -/
theorem assigns_collect {arity : Option Nat} {arguments : List Expr} {os values : List Operand}
    (hOperands : ∀ o ∈ os, ∀ name ∈ o.names, name ∈ pre)
    (h : (collect scope arity arguments os).run fresh = .ok (values, code) fresh') :
    Assigns pre code {name | name ∈ values.flatMap Operand.names} := by
  rcases collect_run.mp h with ⟨_, rfl, rfl, _⟩ | ⟨n, array, _, _, _, hFill, rfl⟩
  · refine .nil fun name hName => ?_
    obtain ⟨o, ho, hName⟩ := List.mem_flatMap.mp hName
    exact hOperands o ho name hName
  · refine (assigns_fillArray (fun o ho => hOperands o (List.mem_of_mem_drop ho)) hFill).weaken
      (le_refl _) fun name hName => ?_
    obtain ⟨o, ho, hName⟩ := List.mem_flatMap.mp hName
    rcases List.mem_append.mp ho with hTaken | hArray
    · exact .inl (hOperands o (List.mem_of_mem_take hTaken) name hName)
    · obtain rfl := List.mem_singleton.mp hArray
      obtain rfl := List.mem_singleton.mp hName
      exact .inr rfl

/-- The left operand is still assigned when the code of the right one is done. -/
theorem ReadsAssigned.binary {op : Source.BinaryOp} {left right : Expr} {ty : Source.Ty}
    (hLeft : ReadsAssigned scope left) (hRight : ReadsAssigned scope right) :
    ReadsAssigned scope (.binary op left right ty) := by
  intro use fresh l fresh' h
  by_cases hOp : op = .and
  · subst hOp
    obtain ⟨_, _, fresh₁, own, fresh₂, result, fresh₃, _, _, hLowerLeft, hLabels, hTemp,
      hLowerRight, rfl⟩ := expr_and_run.mp h
    rw [newIfLabels_run] at hLabels
    obtain ⟨rfl, rfl⟩ := hLabels
    have hOwnRight := ownLabels_operand hLowerRight
    rw [newTemp_nextLabel hTemp] at hOwnRight
    have hRightAssigns := hRight.operand hLowerRight
    refine ((hLeft.condition hLowerLeft).append (assigns_shortCircuit rfl
      (fun read hRead => .inr hRead)
      (hRightAssigns.weaken Set.subset_union_left Set.subset_union_right) hOwnRight)
      (ownLabels_condition hLowerLeft) (ownLabels_shortCircuit rfl hOwnRight)).weaken (le_refl _)
      fun name hName => ?_
    obtain rfl := List.mem_singleton.mp hName
    exact .inr (.inr rfl)
  · obtain ⟨_, _, _, _, _, _, hLowerLeft, hLowerRight, hFinish⟩ := (expr_binary_run hOp).mp h
    have hOwnLeft := ownLabels_operand hLowerLeft
    have hOwnRight := ownLabels_operand hLowerRight
    refine assigns_finish (assigns_append (hLeft.operand hLowerLeft) (hRight.operand hLowerRight)
      hOwnLeft hOwnRight) (hOwnLeft.append hOwnRight) (fun name hName => ?_) hFinish
    exact .inr (List.mem_append.mp hName)

/-- The receiver and the arguments are still assigned when the call reads them. -/
theorem ReadsAssigned.call {receiver : Expr} {method : String} {arguments : List Expr}
    {ty : Source.Ty} (hReceiver : ReadsAssigned scope receiver)
    (hArguments : ∀ e ∈ arguments, ReadsAssigned scope e) :
    ReadsAssigned scope (.call receiver method arguments ty) := by
  intro use fresh l fresh' h
  cases hLength : asksLength receiver method arguments with
  | true =>
      obtain ⟨o, _, _, hLower, hFinish⟩ := (expr_length_run hLength).mp h
      refine assigns_finish (hReceiver.operand hLower) (ownLabels_operand hLower)
        (fun name hName => ?_) hFinish
      have hOperand : name ∈ o.names := by simpa [Instr.names] using hName
      exact .inr hOperand
  | false =>
      obtain ⟨_, target, targetCode, _, _, _, _, _, _, _, hTarget, hLower, hCollect, hFinish⟩ :=
        (expr_call_run hLength).mp h
      have hOwnTarget := ownLabels_callTarget (labelsOwned scope receiver) hTarget
      have hOwnArguments := ownLabels_operands hLower
      have hOwnCollect := ownLabels_collect hCollect
      have hTargetAssigns : Assigns scope.declared targetCode (named (.operand target)) := by
        rcases callTarget_run.mp hTarget with ⟨_, _, _, rfl, rfl, _⟩ | ⟨_, _, hObject⟩
        · exact .nil nofun
        · exact hReceiver.operand hObject
      have hPassed := (assigns_append hTargetAssigns (ReadsAssigned.operands hArguments hLower)
        hOwnTarget hOwnArguments).append (assigns_collect ?_ hCollect)
        (hOwnTarget.append hOwnArguments) hOwnCollect
      · refine assigns_finish hPassed ((hOwnTarget.append hOwnArguments).append hOwnCollect) ?_
          ((finishCall_run rfl).mp hFinish).2
        intro name hName
        rcases List.mem_append.mp hName with hTargetName | hValue
        · exact .inr (.inl (.inl hTargetName))
        · exact .inr (.inr hValue)
      · exact fun o ho name hName => .inr (.inr (List.mem_flatMap.mpr ⟨o, ho, hName⟩))

/-- Every expression reads only what is assigned, by induction on the expression. The right part of a
conjunction is the one place where code is jumped over. -/
theorem readsAssigned (scope : Scope) (e : Expr) : ReadsAssigned scope e := by
  induction e with
  | intLiteral value | boolLiteral value | self ty =>
      intro use fresh l fresh' h
      obtain ⟨rfl, _⟩ := run_pure_ok.mp h
      exact .nil nofun
  | ident name ty =>
      intro use fresh l fresh' h
      rcases identifier_run.mp h with ⟨d, hLookup, rfl, _⟩ | ⟨_, _, _, hFinish⟩ | ⟨_, _, _, rfl, _⟩
      · refine .nil fun name' hName => ?_
        obtain rfl := List.mem_singleton.mp hName
        exact Option.isSome_iff_exists.mpr ⟨d, hLookup⟩
      · refine assigns_finish (.nil (Set.empty_subset _)) (.straight (Nat.le_refl 0) rfl rfl)
          (fun name hName => ?_) hFinish
        cases hName
      · exact .nil nofun
  | index base place ty hBase hPlace =>
      intro use fresh l fresh' h
      obtain ⟨o, _, _, i, _, _, array, hLowerBase, hLowerPlace, hArray, hFinish⟩ :=
        expr_index_run.mp h
      have hOwnBase := ownLabels_operand hLowerBase
      have hOwnPlace := ownLabels_operand hLowerPlace
      refine assigns_finish (assigns_append (hBase.operand hLowerBase) (hPlace.operand hLowerPlace)
        hOwnBase hOwnPlace) (hOwnBase.append hOwnPlace) (fun name hName => ?_) hFinish
      cases o with
      | «variable» array' ty' =>
          cases hArray
          rcases List.mem_cons.mp hName with rfl | hName
          · exact .inr (.inl (List.mem_singleton_self _))
          · exact .inr (.inr hName)
      | _ => cases hArray
  | paren inner hInner => exact hInner
  | not operand hOperand =>
      intro use fresh l fresh' h
      obtain ⟨_, _, _, hLower, hFinish⟩ := expr_not_run.mp h
      refine assigns_finish (hOperand.operand hLower) (ownLabels_operand hLower)
        (fun name hName => ?_) hFinish
      exact .inr hName
  | newArray size hSize =>
      intro use fresh l fresh' h
      obtain ⟨o, _, _, hLower, hFinish⟩ := expr_newArray_run.mp h
      refine assigns_finish (hSize.operand hLower) (ownLabels_operand hLower) (fun name hName => ?_)
        hFinish
      have hOperand : name ∈ o.names := by
        simpa [newIntArray, Instr.names, Operand.names] using hName
      exact .inr hOperand
  | newObject className =>
      intro use fresh l fresh' h
      obtain ⟨object, _, rfl⟩ := expr_newObject_run.mp h
      have hNew : Assigns scope.declared [allocation object className] _ := .instr _ rfl rfl nofun
      refine (assigns_snoc hNew (.straight (Nat.le_refl 0) rfl rfl) (construction object className)
        rfl rfl fun name hName => ?_).weaken (le_refl _) fun name hName => ?_
      · obtain rfl := List.mem_singleton.mp hName
        exact .inr rfl
      · obtain rfl := List.mem_singleton.mp hName
        exact .inr (.inl rfl)
  | arrayLiteral elements hElements =>
      intro use fresh l fresh' h
      obtain ⟨values, _, _, array, _, hLower, _, hFill, rfl⟩ := expr_arrayLiteral_run.mp h
      obtain ⟨hLabels, hTargets⟩ := straight_fillArray hFill
      refine ((ReadsAssigned.operands hElements hLower).append (assigns_fillArray ?_ hFill)
        (ownLabels_operands hLower) (.straight (Nat.le_refl _) hLabels hTargets)).weaken (le_refl _) ?_
      · exact fun o ho name hName => .inr (List.mem_flatMap.mpr ⟨o, ho, hName⟩)
      · intro name hName
        obtain rfl := List.mem_singleton.mp hName
        exact .inr (.inr rfl)
  | binary op left right ty hLeft hRight => exact hLeft.binary hRight
  | call receiver method arguments ty hReceiver hArguments => exact hReceiver.call hArguments

end Expressions

section Statements

variable {code : List Instr}

/-- The code of an expression reads nothing unassigned, and its value names only what is declared or was
assigned in the code. -/
theorem assigns_expr {e : Expr} {use : Use} {l : Lowered}
    (h : (expr scope e use).run fresh = .ok l fresh') :
    Assigns scope.declared l.code (named l.value) := readsAssigned scope e _ _ _ _ h

theorem assigns_operand {e : Expr} {o : Operand}
    (h : (operand scope e).run fresh = .ok (o, code) fresh') :
    Assigns scope.declared code (named (.operand o)) := (readsAssigned scope e).operand h

theorem assigns_condition {e : Expr} {c : Condition}
    (h : (condition scope e).run fresh = .ok (c, code) fresh') :
    Assigns scope.declared code {name | name ∈ c.names} := (readsAssigned scope e).condition h

/-- An assignment reads nothing unassigned. That it assigns a declared variable adds nothing to what was
known. -/
theorem assigns_assign {target value : Expr}
    (h : (assign scope target value).run fresh = .ok code fresh') :
    Assigns scope.declared code ∅ := by
  rcases assign_run.mp h with ⟨name, _, _, hName⟩ | ⟨base, place, ty, _, hElement⟩
  · rcases assignName_run.mp hName with ⟨_, _, _, hLower, rfl⟩ | ⟨_, _, _, _, _, hLower, rfl⟩
    · refine (assigns_snoc (assigns_expr hLower) (ownLabels_expr hLower) (.assign _ _ _) rfl rfl
        fun name hName => ?_).weaken (le_refl _) (Set.empty_subset _)
      exact .inr hName
    · refine (assigns_snoc (assigns_operand hLower) (ownLabels_operand hLower) (.putField _ _ _ _) rfl
        rfl fun name hName => ?_).weaken (le_refl _) (Set.empty_subset _)
      exact .inr hName
  · obtain ⟨l, _, o, _, _, _, _, _, hValue, hBase, hPlace, hArray, rfl⟩ :=
      assignElement_run.mp hElement
    have hOwnValue := ownLabels_expr hValue
    have hOwnBase := ownLabels_operand hBase
    have hOwnPlace := ownLabels_operand hPlace
    have hAll := assigns_append (assigns_append (assigns_expr hValue) (assigns_operand hBase)
      hOwnValue hOwnBase) (assigns_operand hPlace) (hOwnValue.append hOwnBase) hOwnPlace
    refine (assigns_snoc hAll ((hOwnValue.append hOwnBase).append hOwnPlace)
      (.assign (.element _ _ _) _ _) rfl rfl fun name hName => ?_).weaken (le_refl _)
      (Set.empty_subset _)
    cases o with
    | «variable» array ty' =>
        cases hArray
        rcases List.mem_cons.mp hName with rfl | hName
        · exact .inr (.inl (.inr (List.mem_singleton_self _)))
        · exact .inr ((List.mem_append.mp hName).elim (fun hPlace => .inr hPlace)
            fun hValue => .inl (.inl hValue))
    | _ => cases hArray

theorem assigns_ret {value : Option Expr} (h : (ret scope value).run fresh = .ok code fresh') :
    Assigns scope.declared code ∅ := by
  cases value with
  | none =>
      obtain ⟨rfl, _⟩ := ret_none_run.mp h
      exact (Assigns.instr (.ret none _) rfl rfl nofun).weaken (le_refl _) (Set.empty_subset _)
  | some e =>
      obtain ⟨_, _, hLower, rfl⟩ := ret_some_run.mp h
      refine (assigns_snoc (assigns_operand hLower) (ownLabels_operand hLower) (.ret (some _) _) rfl
        rfl fun name hName => ?_).weaken (le_refl _) (Set.empty_subset _)
      exact .inr hName

theorem assigns_discarded {e : Expr} {l : Lowered}
    (h : (expr scope e .discard).run fresh = .ok l fresh') :
    Assigns scope.declared (discarded l) ∅ := by
  have hCode := assigns_expr h
  have hOwn := ownLabels_expr h
  obtain ⟨hLabel, hTarget⟩ := straight_value h
  unfold discarded
  split
  · exact hCode.weaken (le_refl _) (Set.empty_subset _)
  · exact (assigns_snoc hCode hOwn _ hLabel hTarget fun _ hName =>
      .inr (Instr.mem_names_of_reads hName)).weaken (le_refl _) (Set.empty_subset _)

/-- From the parts to the whole of a list of statements. -/
theorem assigns_stmts_of {ss : List Stmt}
    (hParts : ∀ s ∈ ss, ∀ {fresh fresh' code}, (stmt scope s).run fresh = .ok code fresh' →
      Assigns scope.declared code ∅) (h : (stmts scope ss).run fresh = .ok code fresh') :
    Assigns scope.declared code ∅ := by
  induction ss generalizing fresh code with
  | nil =>
      obtain ⟨rfl, _⟩ := stmts_nil_run.mp h
      exact .nil (Set.empty_subset _)
  | cons s rest ih =>
      obtain ⟨_, _, _, hHead, hRest, rfl⟩ := stmts_cons_run.mp h
      have hOthers := ih (fun s hs => hParts s (List.mem_cons_of_mem _ hs)) hRest
      exact (assigns_append (hParts s (by simp) hHead) hOthers (ownLabels_stmt hHead)
        (ownLabels_stmts hRest)).weaken (le_refl _) (Set.empty_subset _)

/-- The code of every statement reads nothing unassigned from what is declared alone, by induction on the
statement. It need not count on temporaries of the code before it. -/
theorem assigns_stmt {s : Stmt} (h : (stmt scope s).run fresh = .ok code fresh') :
    Assigns scope.declared code ∅ := by
  induction s generalizing fresh code fresh' with
  | block statements hParts => exact assigns_stmts_of hParts h
  | cond test thenBranch elseBranch hThen hElse =>
      obtain ⟨c, _, fresh₁, own, _, elseCode, fresh₃, thenCode, hTest, hLabels, hLowerElse,
        hLowerThen, rfl⟩ := stmt_cond_run.mp h
      rw [newIfLabels_run] at hLabels
      obtain ⟨rfl, rfl⟩ := hLabels
      obtain ⟨hElseAssigns, hOwnElse⟩ : Assigns scope.declared elseCode ∅ ∧
          OwnLabels (fresh₁.nextLabel + 1) fresh₃.nextLabel elseCode := by
        cases elseBranch with
        | none =>
            obtain ⟨rfl, rfl⟩ := run_pure_ok.mp hLowerElse
            exact ⟨.nil (Set.empty_subset _), .straight (Nat.le_refl _) rfl rfl⟩
        | some s => exact ⟨hElse s rfl hLowerElse, ownLabels_stmt hLowerElse⟩
      have hOwnThen := ownLabels_stmt hLowerThen
      have hBranches : Assigns (scope.declared ∪ {name | name ∈ c.names})
          (conditional _ c thenCode elseCode) ∅ :=
        assigns_conditional rfl (fun read hRead => .inr hRead)
          (hElseAssigns.weaken Set.subset_union_left (Set.empty_subset _))
          ((hThen hLowerThen).weaken Set.subset_union_left (Set.empty_subset _)) hOwnElse hOwnThen
      exact ((assigns_condition hTest).append hBranches (ownLabels_condition hTest)
        (ownLabels_conditional rfl hOwnElse hOwnThen)).weaken (le_refl _) (Set.empty_subset _)
  | loop test body hBody =>
      obtain ⟨entry, _, fresh₁, own, _, bodyCode, fresh₃, again, againCode, hTest, hLabels, hLower,
        hAgain, rfl⟩ := stmt_loop_run.mp h
      rw [newWhileLabels_run] at hLabels
      obtain ⟨rfl, rfl⟩ := hLabels
      have hOwnBody := ownLabels_stmt hLower
      have hOwnAgain := ownLabels_condition hAgain
      have hLoop : Assigns (scope.declared ∪ {name | name ∈ entry.names})
          (whileLoop _ entry bodyCode (again, againCode)) ∅ :=
        assigns_whileLoop rfl (fun read hRead => .inr hRead)
          ((hBody hLower).weaken Set.subset_union_left (Set.empty_subset _))
          ((assigns_condition hAgain).weaken Set.subset_union_left Set.subset_union_right) hOwnBody
          hOwnAgain
      exact ((assigns_condition hTest).append hLoop (ownLabels_condition hTest)
        (ownLabels_whileLoop rfl hOwnBody hOwnAgain)).weaken (le_refl _) (Set.empty_subset _)
  | assign target value => exact assigns_assign h
  | ret value => exact assigns_ret h
  | eval e =>
      obtain ⟨_, hLower, rfl⟩ := stmt_eval_run.mp h
      exact assigns_discarded hLower

theorem assigns_stmts {ss : List Stmt} (h : (stmts scope ss).run fresh = .ok code fresh') :
    Assigns scope.declared code ∅ := assigns_stmts_of (fun _ _ => assigns_stmt) h

/-- The body of a method reads nothing unassigned: its parameters and locals are assigned from the start,
and every temporary before it is read. -/
theorem assigns_method {symbols : Source.SymbolTable} {m : Source.MethodDecl}
    {signature : Source.Signature} {lowered : Code.Method}
    (hSignature : symbols.method? m.name = some signature)
    (h : (method symbols m).run fresh = .ok lowered fresh') :
    Assigns (Scope.declared ⟨symbols, signature⟩) lowered.body ∅ := by
  obtain ⟨_, body, hFound, hBody, rfl⟩ := method_run.mp h
  obtain rfl := Option.some.inj (hSignature.symm.trans hFound)
  have hAssigns := assigns_stmts hBody
  unfold closed
  split
  · exact (assigns_snoc hAssigns (ownLabels_stmts hBody) (.ret none .void) rfl rfl nofun).weaken
      (le_refl _) (Set.empty_subset _)
  · exact hAssigns

end Statements

end MiniJava.Lowering
