import MiniJava.Proofs.Lowering.Values
import Mathlib.Data.List.Nodup
import Mathlib.Data.List.Perm.Basic

/-! Labels of three-address code. Lowering numbers its labels upwards, so the code of a phrase has
the numbers taken while it was lowered to itself, and it jumps to no label but its own. -/

namespace MiniJava.Code

/-- The label that the instruction is, if it is one. A jump names a label without being one. -/
@[simp] def Instr.label? : Instr → Option Label
  | .label l => some l
  | _ => none

/-- The label to which the instruction may jump. A branch may also go on, a plain jump never does. -/
@[simp] def Instr.target? : Instr → Option Label
  | .branch _ target | .goto target => some target
  | _ => none

/-- The labels that stand in the code, in their order. A label that stands there twice is listed
twice. -/
def labels (code : List Instr) : List Label := code.filterMap Instr.label?

/-- The labels to which the code may jump. They need not stand in the code itself. -/
def targets (code : List Instr) : List Label := code.filterMap Instr.target?

@[simp] theorem labels_append (first second : List Instr) :
    labels (first ++ second) = labels first ++ labels second := List.filterMap_append

@[simp] theorem targets_append (first second : List Instr) :
    targets (first ++ second) = targets first ++ targets second := List.filterMap_append

@[simp] theorem labels_nil : labels [] = [] := rfl

@[simp] theorem targets_nil : targets [] = [] := rfl

@[simp] theorem labels_cons (i : Instr) (code : List Instr) :
    labels (i :: code) = i.label?.toList ++ labels code := by
  rw [labels, List.filterMap_cons]
  cases i.label? <;> rfl

@[simp] theorem targets_cons (i : Instr) (code : List Instr) :
    targets (i :: code) = i.target?.toList ++ targets code := by
  rw [targets, List.filterMap_cons]
  cases i.target? <;> rfl

/-- No label stands twice, and every jump goes to a label of the code. Such code can be moved as a
whole. -/
structure Resolved (code : List Instr) : Prop where
  nodup : (labels code).Nodup
  closed : ∀ target ∈ targets code, target ∈ labels code

/-- Resolved code whose labels have numbers from `first` up to, but not including, `last`. Pieces with
numbers from disjoint ranges can be put together. -/
structure OwnLabels (first last : Nat) (code : List Instr) : Prop extends Resolved code where
  le : first ≤ last
  bounds : ∀ l ∈ labels code, first ≤ l.id ∧ l.id < last

namespace OwnLabels

variable {first middle last : Nat} {code rest : List Instr}

/-- Code without labels and jumps owns whatever range of numbers it is given, and uses none of it. -/
theorem straight (hLe : first ≤ last) (hLabels : labels code = []) (hTargets : targets code = []) :
    OwnLabels first last code := by
  refine ⟨⟨?_, ?_⟩, hLe, ?_⟩ <;> simp [hLabels, hTargets]

/-- Code of one range of numbers and code of the next one behind it. What each part jumps to is in this
part, and no label can be in both. -/
theorem append (hCode : OwnLabels first middle code) (hRest : OwnLabels middle last rest) :
    OwnLabels first last (code ++ rest) := by
  refine ⟨⟨?_, ?_⟩, Nat.le_trans hCode.le hRest.le, ?_⟩
  · rw [labels_append]
    refine hCode.nodup.append hRest.nodup fun l hl hl' => ?_
    have hBelow := hCode.bounds l hl
    have hAbove := hRest.bounds l hl'
    omega
  · intro target hTarget
    rw [targets_append, List.mem_append] at hTarget
    rw [labels_append, List.mem_append]
    exact hTarget.imp (hCode.closed target) (hRest.closed target)
  · intro l hl
    rw [labels_append, List.mem_append] at hl
    rcases hl with hl | hl
    · have := hCode.bounds l hl
      exact ⟨this.1, Nat.lt_of_lt_of_le this.2 hRest.le⟩
    · have := hRest.bounds l hl
      exact ⟨Nat.le_trans hCode.le this.1, this.2⟩

theorem append_straight (hCode : OwnLabels first last code) (hLabels : labels rest = [])
    (hTargets : targets rest = []) : OwnLabels first last (code ++ rest) :=
  hCode.append (.straight (Nat.le_refl _) hLabels hTargets)

/-- Code put around other code may bring in the two labels of the number before. Conditionals, loops and
conjunctions are all of this form. -/
theorem enclose {inner : List Instr} {x y : Label} (hInner : OwnLabels (first + 1) last inner)
    (hx : x.id = first) (hy : y.id = first) (hxy : x ≠ y)
    (hLabels : (labels code).Perm (x :: y :: labels inner))
    (hTargets : ∀ target ∈ targets code, target = x ∨ target = y ∨ target ∈ targets inner) :
    OwnLabels first last code := by
  have hOutside : ∀ l : Label, l.id = first → l ∉ labels inner := by
    intro l hl hMem
    have := hInner.bounds l hMem
    omega
  refine ⟨⟨?_, ?_⟩, Nat.le_of_succ_le hInner.le, ?_⟩
  · rw [hLabels.nodup_iff]
    simp only [List.nodup_cons, List.mem_cons, not_or]
    exact ⟨⟨hxy, hOutside x hx⟩, hOutside y hy, hInner.nodup⟩
  · intro target hTarget
    rw [hLabels.mem_iff, List.mem_cons, List.mem_cons]
    exact (hTargets target hTarget).imp_right (Or.imp_right (hInner.closed target))
  · intro l hl
    rw [hLabels.mem_iff, List.mem_cons, List.mem_cons] at hl
    have hStep := hInner.le
    rcases hl with rfl | rfl | hl
    · omega
    · omega
    · have := hInner.bounds l hl
      omega

end OwnLabels

end MiniJava.Code

namespace MiniJava.Lowering

open Code (Condition Instr Label Operand OwnLabels labels targets)
open Source (Expr Stmt)

variable {scope : Scope} {fresh fresh' : Fresh}

theorem newTemp_nextLabel {name : String} (h : scope.newTemp.run fresh = .ok name fresh') :
    fresh'.nextLabel = fresh.nextLabel := by
  rw [newTemp_run] at h
  cases h
  rfl

section Composite

variable {own : Label × Label} {result o : Operand} {test again : Condition}
  {code other : List Instr} {first middle last : Nat}

/-- The labels of an operator that may skip its right operand: its own two around those of that
operand. -/
theorem labels_shortCircuit :
    labels (shortCircuit own result test (o, code)) = own.1 :: (labels code ++ [own.2]) := by
  simp [shortCircuit]

/-- It jumps to the first of its own labels to evaluate the right operand, and to the second one
past it. -/
theorem targets_shortCircuit :
    targets (shortCircuit own result test (o, code)) = own.1 :: own.2 :: targets code := by
  simp [shortCircuit]

/-- The labels of a conditional: those of the branch for false come first, as its code does. -/
theorem labels_conditional :
    labels (conditional own test code other) =
      labels other ++ own.1 :: (labels code ++ [own.2]) := by
  simp [conditional]

/-- It jumps to the first of its own labels for the branch for true, and behind the branch for false to
its end. -/
theorem targets_conditional :
    targets (conditional own test code other) =
      own.1 :: (targets other ++ own.2 :: targets code) := by
  simp [conditional]

/-- The labels of a loop: its own two around those of its body and of the test that stands again behind
the body. -/
theorem labels_whileLoop :
    labels (whileLoop own test code (again, other)) =
      own.1 :: (labels code ++ (labels other ++ [own.2])) := by
  simp [whileLoop]

/-- It jumps to its body twice, from the test before it and from the one behind it, and to its end
once. -/
theorem targets_whileLoop :
    targets (whileLoop own test code (again, other)) =
      own.1 :: own.2 :: (targets code ++ (targets other ++ [own.1])) := by
  simp [whileLoop]

/-- The two labels of the operator take the number before those of the right operand. -/
theorem ownLabels_shortCircuit (hOwn : own = (⟨.ifBody, first⟩, ⟨.endIf, first⟩))
    (hRight : OwnLabels (first + 1) last code) :
    OwnLabels first last (shortCircuit own result test (o, code)) := by
  subst hOwn
  refine hRight.enclose (x := ⟨.ifBody, first⟩) (y := ⟨.endIf, first⟩) rfl rfl (by simp) ?_ ?_
  · rw [labels_shortCircuit]
    exact List.Perm.cons _ (List.perm_append_singleton _ _)
  · intro target hTarget
    simpa [targets_shortCircuit] using hTarget

/-- The two labels of the conditional take the number before those of its branches. -/
theorem ownLabels_conditional (hOwn : own = (⟨.ifBody, first⟩, ⟨.endIf, first⟩))
    (hElse : OwnLabels (first + 1) middle other) (hThen : OwnLabels middle last code) :
    OwnLabels first last (conditional own test code other) := by
  subst hOwn
  refine (hElse.append hThen).enclose (x := ⟨.ifBody, first⟩) (y := ⟨.endIf, first⟩) rfl rfl
    (by simp) ?_ ?_
  · rw [labels_conditional, List.perm_iff_count]
    intro l
    simp only [Code.labels_append, List.count_append, List.count_cons, List.count_nil]
    omega
  · intro target hTarget
    simp only [targets_conditional, List.mem_cons, List.mem_append] at hTarget
    simp only [Code.targets_append, List.mem_append]
    tauto

/-- The two labels of the loop take the number before those of its body and of the second test. -/
theorem ownLabels_whileLoop (hOwn : own = (⟨.whileBody, first⟩, ⟨.endWhile, first⟩))
    (hBody : OwnLabels (first + 1) middle code) (hAgain : OwnLabels middle last other) :
    OwnLabels first last (whileLoop own test code (again, other)) := by
  subst hOwn
  refine (hBody.append hAgain).enclose (x := ⟨.whileBody, first⟩) (y := ⟨.endWhile, first⟩) rfl rfl
    (by simp) ?_ ?_
  · rw [labels_whileLoop, List.perm_iff_count]
    intro l
    simp only [Code.labels_append, List.count_append, List.count_cons, List.count_nil]
    omega
  · intro target hTarget
    simp only [targets_whileLoop, List.mem_cons, List.mem_append, List.not_mem_nil] at hTarget
    simp only [Code.targets_append, List.mem_append]
    tauto

end Composite

theorem ownLabels_finish {first : Nat} {mayStay : Bool} {value : Instr} {code : List Instr}
    {l : Lowered} (hCode : OwnLabels first fresh.nextLabel code)
    (h : (finish scope mayStay value code).run fresh = .ok l fresh') :
    OwnLabels first fresh'.nextLabel l.code := by
  rcases finish_run.mp h with ⟨_, rfl, rfl⟩ | ⟨_, name, hTemp, rfl⟩
  · exact hCode
  · rw [newTemp_nextLabel hTemp]
    exact hCode.append_straight (by simp) (by simp)

theorem straight_fillArray {array : String} {values : List Operand} {code : List Instr}
    (h : (fillArray array values).run fresh = .ok code fresh') :
    labels code = [] ∧ targets code = [] := by
  obtain ⟨_, rfl, _⟩ := fillArray_run.mp h
  have hStores : ∀ i ∈ storeItems array 0 values, i.label? = none ∧ i.target? = none := by
    intro i hi
    obtain ⟨place, hPlace, rfl⟩ := List.mem_mapIdx.mp hi
    simp
  constructor
  · simpa [labels] using fun i hi => (hStores i hi).1
  · simpa [targets] using fun i hi => (hStores i hi).2

theorem ownLabels_fillArray {array : String} {values : List Operand} {code : List Instr}
    (h : (fillArray array values).run fresh = .ok code fresh') :
    OwnLabels fresh.nextLabel fresh'.nextLabel code := by
  obtain ⟨hLabels, hTargets⟩ := straight_fillArray h
  obtain ⟨_, _, rfl⟩ := fillArray_run.mp h
  exact .straight (Nat.le_refl _) hLabels hTargets

/-- The labels of lowered code are the ones taken for it. This is what induction over expressions
carries. -/
def LabelsOwned (scope : Scope) (e : Expr) : Prop :=
  ∀ (use : Use) (fresh : Fresh) (l : Lowered) (fresh' : Fresh),
    (expr scope e use).run fresh = .ok l fresh' → OwnLabels fresh.nextLabel fresh'.nextLabel l.code

/-- What holds of all uses of an expression holds of its use as an operand. -/
theorem LabelsOwned.operand {e : Expr} (he : LabelsOwned scope e) {o : Operand} {code : List Instr}
    (h : (operand scope e).run fresh = .ok (o, code) fresh') :
    OwnLabels fresh.nextLabel fresh'.nextLabel code :=
  he _ _ _ _ (operand_run.mp h)

/-- A condition is lowered by the expression or by the two operands that it compares, with the same
labels in both cases. -/
theorem LabelsOwned.condition {e : Expr} (he : LabelsOwned scope e) {c : Condition}
    {code : List Instr} (h : (condition scope e).run fresh = .ok (c, code) fresh') :
    OwnLabels fresh.nextLabel fresh'.nextLabel code := by
  obtain ⟨value, hLower, _⟩ := condition_run.mp h
  exact he _ _ _ _ hLower

/-- Operands are lowered one after another, each with the numbers that come next. -/
theorem LabelsOwned.operands {es : List Expr} (hes : ∀ e ∈ es, LabelsOwned scope e)
    {values : List Operand} {code : List Instr}
    (h : (operands scope es).run fresh = .ok (values, code) fresh') :
    OwnLabels fresh.nextLabel fresh'.nextLabel code := by
  induction es generalizing fresh values code with
  | nil =>
      obtain ⟨_, rfl, rfl⟩ := operands_nil_run.mp h
      exact .straight (Nat.le_refl _) rfl rfl
  | cons e rest ih =>
      obtain ⟨hHead, hRest⟩ := List.forall_mem_cons.mp hes
      obtain ⟨o, headCode, fresh₁, os, restCode, hFirst, hOthers, _, rfl⟩ := operands_cons_run.mp h
      exact (hHead.operand hFirst).append (ih hRest hOthers)

/-- The target of a call is its lowered receiver, or there is no code for it. -/
theorem ownLabels_callTarget {receiver : Expr} (hReceiver : LabelsOwned scope receiver)
    {kind : Code.CallKind} {target : Operand} {code : List Instr}
    (h : (callTarget scope receiver (operand scope receiver)).run fresh =
      .ok (kind, target, code) fresh') :
    OwnLabels fresh.nextLabel fresh'.nextLabel code := by
  rcases callTarget_run.mp h with ⟨_, _, _, _, rfl, rfl⟩ | ⟨_, _, hLower⟩
  · exact .straight (Nat.le_refl _) rfl rfl
  · exact hReceiver.operand hLower

/-- Collecting arguments in an array is filling an array, or nothing at all. -/
theorem ownLabels_collect {arity : Option Nat} {arguments : List Expr} {os values : List Operand}
    {code : List Instr}
    (h : (collect scope arity arguments os).run fresh = .ok (values, code) fresh') :
    OwnLabels fresh.nextLabel fresh'.nextLabel code := by
  rcases collect_run.mp h with ⟨_, _, rfl, rfl⟩ | ⟨_, array, _, _, hTemp, hFill, _⟩
  · exact .straight (Nat.le_refl _) rfl rfl
  · rw [← newTemp_nextLabel hTemp]
    exact ownLabels_fillArray hFill

/-- Every expression owns the labels taken for it, by induction on the expression. Only operators that
may skip an operand take labels themselves. -/
theorem labelsOwned (scope : Scope) (e : Expr) : LabelsOwned scope e := by
  induction e with
  | intLiteral value | boolLiteral value | self ty =>
      intro use fresh l fresh' h
      obtain ⟨rfl, rfl⟩ := run_pure_ok.mp h
      exact .straight (Nat.le_refl _) rfl rfl
  | ident name ty =>
      intro use fresh l fresh' h
      rcases identifier_run.mp h with ⟨_, _, rfl, rfl⟩ | ⟨_, _, _, hFinish⟩ | ⟨_, _, _, rfl, rfl⟩
      · exact .straight (Nat.le_refl _) rfl rfl
      · exact ownLabels_finish (.straight (Nat.le_refl _) rfl rfl) hFinish
      · exact .straight (Nat.le_refl _) rfl rfl
  | index base place ty hBase hPlace =>
      intro use fresh l fresh' h
      obtain ⟨_, _, _, _, _, _, _, hLowerBase, hLowerPlace, _, hFinish⟩ := expr_index_run.mp h
      exact ownLabels_finish ((hBase.operand hLowerBase).append (hPlace.operand hLowerPlace)) hFinish
  | paren inner hInner => exact hInner
  | not operand hOperand =>
      intro use fresh l fresh' h
      obtain ⟨_, _, _, hLower, hFinish⟩ := expr_not_run.mp h
      exact ownLabels_finish (hOperand.operand hLower) hFinish
  | newArray size hSize =>
      intro use fresh l fresh' h
      obtain ⟨_, _, _, hLower, hFinish⟩ := expr_newArray_run.mp h
      exact ownLabels_finish (hSize.operand hLower) hFinish
  | newObject className =>
      intro use fresh l fresh' h
      obtain ⟨_, hTemp, rfl⟩ := expr_newObject_run.mp h
      rw [newTemp_nextLabel hTemp]
      exact .straight (Nat.le_refl _) rfl rfl
  | arrayLiteral elements hElements =>
      intro use fresh l fresh' h
      obtain ⟨_, _, _, _, _, hLower, hTemp, hFill, rfl⟩ := expr_arrayLiteral_run.mp h
      rw [newTemp_nextLabel hTemp]
      obtain ⟨hLabels, hTargets⟩ := straight_fillArray hFill
      exact (LabelsOwned.operands hElements hLower).append_straight hLabels hTargets
  | binary op left right ty hLeft hRight =>
      intro use fresh l fresh' h
      by_cases hOp : op = .and
      · subst hOp
        obtain ⟨_, _, fresh₁, own, fresh₂, _, _, _, _, hLowerLeft, hLabels, hTemp, hLowerRight, rfl⟩ :=
          expr_and_run.mp h
        rw [newIfLabels_run] at hLabels
        obtain ⟨rfl, rfl⟩ := hLabels
        have hInner := hRight.operand hLowerRight
        rw [newTemp_nextLabel hTemp] at hInner
        exact (hLeft.condition hLowerLeft).append (ownLabels_shortCircuit rfl hInner)
      · obtain ⟨_, _, _, _, _, _, hLowerLeft, hLowerRight, hFinish⟩ := (expr_binary_run hOp).mp h
        exact ownLabels_finish ((hLeft.operand hLowerLeft).append (hRight.operand hLowerRight))
          hFinish
  | call receiver method arguments ty hReceiver hArguments =>
      intro use fresh l fresh' h
      cases hLength : asksLength receiver method arguments with
      | true =>
          obtain ⟨_, _, _, hLower, hFinish⟩ := (expr_length_run hLength).mp h
          exact ownLabels_finish (hReceiver.operand hLower) hFinish
      | false =>
          obtain ⟨_, _, _, _, _, _, _, _, _, _, hTarget, hLower, hCollect, hFinish⟩ :=
            (expr_call_run hLength).mp h
          exact ownLabels_finish (((ownLabels_callTarget hReceiver hTarget).append
            (LabelsOwned.operands hArguments hLower)).append (ownLabels_collect hCollect))
            ((finishCall_run rfl).mp hFinish).2

/-- The labels of the code of an expression have the numbers that were taken while it was lowered. -/
theorem ownLabels_expr {e : Expr} {use : Use} {l : Lowered}
    (h : (expr scope e use).run fresh = .ok l fresh') :
    OwnLabels fresh.nextLabel fresh'.nextLabel l.code :=
  labelsOwned scope e use fresh l fresh' h

theorem ownLabels_operand {e : Expr} {o : Operand} {code : List Instr}
    (h : (operand scope e).run fresh = .ok (o, code) fresh') :
    OwnLabels fresh.nextLabel fresh'.nextLabel code :=
  (labelsOwned scope e).operand h

theorem ownLabels_operands {es : List Expr} {values : List Operand} {code : List Instr}
    (h : (operands scope es).run fresh = .ok (values, code) fresh') :
    OwnLabels fresh.nextLabel fresh'.nextLabel code :=
  LabelsOwned.operands (fun e _ => labelsOwned scope e) h

theorem ownLabels_condition {e : Expr} {c : Condition} {code : List Instr}
    (h : (condition scope e).run fresh = .ok (c, code) fresh') :
    OwnLabels fresh.nextLabel fresh'.nextLabel code :=
  (labelsOwned scope e).condition h

/-- An expression yields an instruction that is neither a label nor a jump, so it can be put anywhere
behind its code. -/
theorem straight_value {e : Expr} {use : Use} {l : Lowered}
    (h : (expr scope e use).run fresh = .ok l fresh') :
    l.value.label? = none ∧ l.value.target? = none := by
  have hValue := isValue_expr h
  cases hForm : l.value <;> rw [hForm] at hValue <;> first | exact ⟨rfl, rfl⟩ | cases hValue

/-- A value that is dropped adds an instruction that is neither a label nor a jump. -/
theorem ownLabels_discarded {first last : Nat} {l : Lowered} (hCode : OwnLabels first last l.code)
    (hValue : l.value.label? = none ∧ l.value.target? = none) :
    OwnLabels first last (discarded l) := by
  unfold discarded
  split
  · exact hCode
  · refine hCode.append_straight ?_ ?_
    · rw [Code.labels_cons, hValue.1]
      rfl
    · rw [Code.targets_cons, hValue.2]
      rfl

/-- An assignment owns the labels of its two sides, whichever of them is lowered first. -/
theorem ownLabels_assign {target value : Expr} {code : List Instr}
    (h : (assign scope target value).run fresh = .ok code fresh') :
    OwnLabels fresh.nextLabel fresh'.nextLabel code := by
  rcases assign_run.mp h with ⟨name, _, _, hName⟩ | ⟨base, place, ty, _, hElement⟩
  · rcases assignName_run.mp hName with ⟨_, _, _, hLower, rfl⟩ | ⟨_, _, _, _, _, hLower, rfl⟩
    · exact (ownLabels_expr hLower).append_straight rfl rfl
    · exact (ownLabels_operand hLower).append_straight rfl rfl
  · obtain ⟨_, _, _, _, _, _, _, _, hValue, hBase, hPlace, _, rfl⟩ := assignElement_run.mp hElement
    exact (((ownLabels_expr hValue).append (ownLabels_operand hBase)).append
      (ownLabels_operand hPlace)).append_straight rfl rfl

theorem ownLabels_ret {value : Option Expr} {code : List Instr}
    (h : (ret scope value).run fresh = .ok code fresh') :
    OwnLabels fresh.nextLabel fresh'.nextLabel code := by
  cases value with
  | none =>
      obtain ⟨rfl, rfl⟩ := ret_none_run.mp h
      exact .straight (Nat.le_refl _) rfl rfl
  | some e =>
      obtain ⟨_, _, hLower, rfl⟩ := ret_some_run.mp h
      exact (ownLabels_operand hLower).append_straight rfl rfl

/-- From the parts to the whole of a list of statements. -/
theorem ownLabels_stmts_of {ss : List Stmt}
    (hParts : ∀ s ∈ ss, ∀ {fresh fresh' code}, (stmt scope s).run fresh = .ok code fresh' →
      OwnLabels fresh.nextLabel fresh'.nextLabel code) {code : List Instr}
    (h : (stmts scope ss).run fresh = .ok code fresh') :
    OwnLabels fresh.nextLabel fresh'.nextLabel code := by
  induction ss generalizing fresh code with
  | nil =>
      obtain ⟨rfl, rfl⟩ := stmts_nil_run.mp h
      exact .straight (Nat.le_refl _) rfl rfl
  | cons s rest ih =>
      obtain ⟨_, _, _, hHead, hRest, rfl⟩ := stmts_cons_run.mp h
      exact (hParts s (by simp) hHead).append
        (ih (fun s hs => hParts s (List.mem_cons_of_mem _ hs)) hRest)

/-- Every statement owns the labels taken for it, by induction on the statement. Those of its parts lie
within its range. -/
theorem ownLabels_stmt {s : Stmt} {code : List Instr}
    (h : (stmt scope s).run fresh = .ok code fresh') :
    OwnLabels fresh.nextLabel fresh'.nextLabel code := by
  induction s generalizing fresh code fresh' with
  | block statements hParts => exact ownLabels_stmts_of hParts h
  | cond test thenBranch elseBranch hThen hElse =>
      obtain ⟨_, _, fresh₁, own, _, _, fresh₃, _, hTest, hLabels, hLowerElse, hLowerThen, rfl⟩ :=
        stmt_cond_run.mp h
      rw [newIfLabels_run] at hLabels
      obtain ⟨rfl, rfl⟩ := hLabels
      refine (ownLabels_condition hTest).append (ownLabels_conditional rfl ?_ (hThen hLowerThen))
      cases elseBranch with
      | none =>
          obtain ⟨rfl, rfl⟩ := run_pure_ok.mp hLowerElse
          exact .straight (Nat.le_refl _) rfl rfl
      | some s => exact hElse s rfl hLowerElse
  | loop test body hBody =>
      obtain ⟨_, _, fresh₁, own, _, _, fresh₃, _, _, hTest, hLabels, hLower, hAgain, rfl⟩ :=
        stmt_loop_run.mp h
      rw [newWhileLabels_run] at hLabels
      obtain ⟨rfl, rfl⟩ := hLabels
      exact (ownLabels_condition hTest).append
        (ownLabels_whileLoop rfl (hBody hLower) (ownLabels_condition hAgain))
  | assign target value => exact ownLabels_assign h
  | ret value => exact ownLabels_ret h
  | eval e =>
      obtain ⟨_, hLower, rfl⟩ := stmt_eval_run.mp h
      exact ownLabels_discarded (ownLabels_expr hLower) (straight_value hLower)

/-- Statements own their labels one after another, and no jump leads from one into the next. -/
theorem ownLabels_stmts {ss : List Stmt} {code : List Instr}
    (h : (stmts scope ss).run fresh = .ok code fresh') :
    OwnLabels fresh.nextLabel fresh'.nextLabel code :=
  ownLabels_stmts_of (fun _ _ => ownLabels_stmt) h

theorem ownLabels_closed {first last : Nat} {m : Code.Method} (h : OwnLabels first last m.body) :
    OwnLabels first last (closed m).body := by
  unfold closed
  split
  · exact h.append_straight rfl rfl
  · exact h

/-- A method owns the labels taken while it was lowered, so that its jumps stay in it. -/
theorem ownLabels_method {symbols : Source.SymbolTable} {m : Source.MethodDecl}
    {lowered : Code.Method} (h : (method symbols m).run fresh = .ok lowered fresh') :
    OwnLabels fresh.nextLabel fresh'.nextLabel lowered.body := by
  obtain ⟨_, _, _, hBody, rfl⟩ := method_run.mp h
  exact ownLabels_closed (ownLabels_stmts hBody)

/-- The numbers run on from one method to the next, so the bodies of a class can be read as one piece of
code. -/
theorem ownLabels_methods {symbols : Source.SymbolTable} {ms : List Source.MethodDecl}
    {lowered : List Code.Method} (h : (methods symbols ms).run fresh = .ok lowered fresh') :
    OwnLabels fresh.nextLabel fresh'.nextLabel (lowered.flatMap (·.body)) ∧
      ∀ m ∈ lowered, Code.Resolved m.body := by
  induction ms generalizing fresh lowered with
  | nil =>
      obtain ⟨rfl, rfl⟩ := methods_nil_run.mp h
      exact ⟨.straight (Nat.le_refl _) rfl rfl, by simp⟩
  | cons m rest ih =>
      obtain ⟨first, _, others, hFirst, hRest, rfl⟩ := methods_cons_run.mp h
      have hOwn := ownLabels_method hFirst
      obtain ⟨hOthers, hEach⟩ := ih hRest
      exact ⟨hOwn.append hOthers, List.forall_mem_cons.mpr ⟨hOwn.toResolved, hEach⟩⟩

/-- The labels of a whole class: their numbers begin with 0 and run through all methods, and each method
jumps within itself. -/
theorem ownLabels_ofProgram {withConstructor : Bool} {program : Source.Program}
    {unit : Code.ClassUnit} (h : ofProgram withConstructor program = .ok unit) :
    ∃ last, OwnLabels 0 last (unit.methods.flatMap (·.body)) ∧
      ∀ m ∈ unit.methods, Code.Resolved m.body := by
  obtain ⟨_, _, hMethods, rfl⟩ := ofProgram_ok.mp h
  exact ⟨_, ownLabels_methods hMethods⟩

end MiniJava.Lowering
