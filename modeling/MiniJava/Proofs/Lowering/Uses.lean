import MiniJava.Proofs.Lowering.Failures

/-!
How the code of an expression depends on the use of its value. It does so at its end only: lowering
for any use is lowering for an assignment, after which a value that the use does not take is put into
a temporary.
-/

namespace MiniJava.Code

/-- Whether the instruction compares, so that a branch can test it. Its operands may be of any form. -/
def Instr.isComparison : Instr → Bool
  | .binary op _ _ _ => op.isComparison
  | _ => false

/-- Whether the instruction calls a method, which may be a class's or an object's. Constructors are
called by other instructions and are never the value of an expression. -/
def Instr.isMethodCall : Instr → Bool
  | .call .invokeStatic _ _ _ _ | .call .invokeVirtual _ _ _ _ => true
  | _ => false

/-- The method that the instruction calls for no value. Such a call cannot be an operand, and the report
names the method. -/
def Instr.voidMethod? : Instr → Option String
  | .call _ _ (some method) _ ty => if ty.isVoid then some method else none
  | _ => none

end MiniJava.Code

namespace MiniJava.Lowering

open Code (Instr Operand)
open Source (Expr)

variable {scope : Scope} {fresh fresh' : Fresh} {use : Use}

/-- The instructions that may be the value of an expression in a use, other than operands. -/
def Use.takes : Use → Instr → Bool
  | .value, _ => false
  | .assignRhs, _ => true
  | .condition, i => i.isComparison
  | .discard, i => i.isMethodCall

/-- The failure to use a call of `method` as a value. -/
def voidCall (method : String) : CompileError :=
  .unsupported ("void call to '" ++ method ++ "' used as a value")

/-- Makes the value an operand. -/
def settle (scope : Scope) (l : Lowered) : Lower Lowered :=
  match l.value.voidMethod? with
  | some method => throw (voidCall method)
  | none => finish scope false l.value l.code

/-- Makes the value one that the use takes. -/
def serve (scope : Scope) (use : Use) (l : Lowered) : Lower Lowered :=
  if use.takes l.value then return l else settle scope l

theorem finish_of_stays {mayStay : Bool} {value : Instr} {code : List Instr}
    (h : (mayStay || isPlain value) = true) : finish scope mayStay value code = pure ⟨value, code⟩ := by
  rw [finish, if_pos h]

theorem serve_of_plain {l : Lowered} (h : isPlain l.value = true) : serve scope use l = pure l := by
  obtain ⟨value, code⟩ := l
  cases value with
  | operand o =>
      unfold serve settle
      split
      · rfl
      · exact finish_of_stays h
  | _ => cases h

/-- Steps with the same first part are the same if they go on alike from all that it gives. What it never
gives need not be looked at. -/
theorem bind_congr_of_run {α β : Type} {step : Lower α} {next next' : α → Lower β}
    (h : ∀ fresh a fresh', step.run fresh = .ok a fresh' → next a = next' a) :
    step >>= next = step >>= next' := by
  funext fresh
  change (step >>= next).run fresh = (step >>= next').run fresh
  rw [EStateM.run_bind, EStateM.run_bind]
  cases hRun : step.run fresh with
  | error => rfl
  | ok a fresh' =>
      dsimp only
      rw [h fresh a fresh' hRun]

/-- A step that always gives plain operands serves every use. -/
theorem bind_serve {step : Lower Lowered}
    (h : ∀ fresh l fresh', step.run fresh = .ok l fresh' → isPlain l.value = true) :
    step >>= serve scope use = step := by
  calc step >>= serve scope use
    _ = step >>= pure := bind_congr_of_run fun fresh l fresh' hRun =>
        serve_of_plain (h fresh l fresh' hRun)
    _ = step := bind_pure step

/-- A value that may stay where it is assigned, and in those other uses that take it. Where it may not
stay, the use takes a temporary for it. -/
theorem finish_eq_bind_serve (mayStay : Use → Bool) {value : Instr} {code : List Instr}
    (hVoid : value.voidMethod? = none) (hStay : use.takes value = mayStay use)
    (hAssign : mayStay .assignRhs = true) :
    finish scope (mayStay use) value code =
      finish scope (mayStay .assignRhs) value code >>= serve scope use := by
  rw [hAssign, finish_of_stays (Bool.true_or _), pure_bind]
  unfold serve settle
  rw [hStay]
  cases mayStay use with
  | true => exact finish_of_stays (Bool.true_or _)
  | false =>
      rw [hVoid]
      rfl

/-- Only an assignment takes values that are neither comparisons nor calls of methods. All other uses
move them to a temporary. -/
theorem finishRhs_eq_bind_serve {value : Instr} {code : List Instr}
    (hVoid : value.voidMethod? = none) (hComparison : value.isComparison = false)
    (hCall : value.isMethodCall = false) :
    finish scope (use = .assignRhs) value code =
      finish scope (Use.assignRhs = .assignRhs) value code >>= serve scope use := by
  refine finish_eq_bind_serve (· = .assignRhs) hVoid ?_ rfl
  cases use with
  | condition => exact hComparison
  | discard => exact hCall
  | _ => rfl

/-- A call stays where it is assigned or dropped, and is moved or refused elsewhere. Which of the two
depends on whether it has a value. -/
theorem finishCall_eq_bind_serve {kind : Code.CallKind} {target : Operand} {method : String}
    {values : List Operand} {ty : Code.Ty} {code : List Instr}
    (hKind : kind = .invokeStatic ∨ kind = .invokeVirtual) :
    finishCall scope use method (.call kind target (some method) values ty) code =
      finishCall scope .assignRhs method (.call kind target (some method) values ty) code >>=
        serve scope use := by
  have hTaken : (Instr.call kind target (some method) values ty).isMethodCall = true := by
    rcases hKind with rfl | rfl <;> rfl
  unfold finishCall
  rw [pure_bind, serve]
  cases use with
  | assignRhs => rfl
  | discard => exact (if_pos hTaken).symm
  | value | condition =>
      cases hVoid : ty.isVoid <;>
        simp [Use.takes, Instr.isComparison, settle, Instr.voidMethod?, Instr.valueType, hVoid,
          voidCall]

theorem isPlain_identifier {name : String} {l : Lowered}
    (h : (identifier scope name).run fresh = .ok l fresh') : isPlain l.value = true := by
  rcases identifier_run.mp h with ⟨_, -, rfl, -⟩ | ⟨_, -, -, hFinish⟩ | ⟨-, -, -, rfl, -⟩
  · rfl
  · rcases finish_run.mp hFinish with ⟨hPlain, -⟩ | ⟨-, _, -, rfl⟩
    · cases hPlain
    · rfl
  · rfl

/-- What a call goes to decides between a call of a class and one of an object, and nothing else. -/
theorem isInvocation_callTarget {receiver : Expr} {kind : Code.CallKind} {target : Operand}
    {code : List Instr} {object : Lower (Operand × List Instr)}
    (h : (callTarget scope receiver object).run fresh = .ok (kind, target, code) fresh') :
    kind = .invokeStatic ∨ kind = .invokeVirtual := by
  unfold callTarget at h
  split at h
  · obtain ⟨⟨⟩, -⟩ := run_pure_ok.mp h
    exact .inl rfl
  · obtain ⟨_, _, -, hRun⟩ := run_bind_ok.mp h
    obtain ⟨⟨⟩, -⟩ := run_pure_ok.mp hRun
    exact .inr rfl

/-- Lowering for any use is lowering for an assignment with one step more. The step sees the value that
is left and the use, and nothing of the expression. -/
theorem expr_eq_bind_serve (scope : Scope) (e : Expr) (use : Use) :
    expr scope e use = expr scope e .assignRhs >>= serve scope use := by
  induction e with
  | intLiteral | boolLiteral | self => exact (serve_of_plain rfl).symm
  | ident name ty => exact (bind_serve fun _ _ _ => isPlain_identifier).symm
  | paren inner ih => exact ih
  | index base place ty =>
      simp only [expr, bind_assoc]
      exact bind_congr fun ⟨array, baseCode⟩ => bind_congr fun ⟨i, placeCode⟩ =>
        bind_congr fun element => finishRhs_eq_bind_serve rfl rfl rfl
  | newArray size | not operand =>
      simp only [expr, bind_assoc]
      exact bind_congr fun ⟨o, code⟩ => finishRhs_eq_bind_serve rfl rfl rfl
  | newObject className =>
      refine (bind_serve fun _ _ _ h => ?_).symm
      obtain ⟨_, -, rfl⟩ := expr_newObject_run.mp h
      rfl
  | arrayLiteral elements =>
      refine (bind_serve fun _ _ _ h => ?_).symm
      obtain ⟨_, _, _, _, _, -, -, -, rfl⟩ := expr_arrayLiteral_run.mp h
      rfl
  | binary op left right ty =>
      by_cases hOp : op = .and
      · subst hOp
        refine (bind_serve fun _ _ _ h => ?_).symm
        obtain ⟨_, _, _, _, _, _, _, _, _, -, -, -, -, rfl⟩ := expr_and_run.mp h
        rfl
      · rw [expr, expr, bind_assoc]
        · refine bind_congr fun ⟨a, leftCode⟩ => ?_
          dsimp only
          rw [bind_assoc]
          refine bind_congr fun ⟨b, rightCode⟩ =>
            finish_eq_bind_serve (operationMayStay (operation op)) rfl ?_ rfl
          cases use <;> rfl
        · exact hOp
        · exact hOp
  | call receiver method arguments ty =>
      simp only [expr]
      split
      · rw [bind_assoc]
        exact bind_congr fun ⟨o, code⟩ => finishRhs_eq_bind_serve rfl rfl rfl
      · simp only [bind_assoc]
        refine bind_congr_of_run fun fresh ⟨kind, target, code⟩ fresh' hTarget => ?_
        exact bind_congr fun ⟨os, argumentCode⟩ => bind_congr fun ⟨values, collectCode⟩ =>
          finishCall_eq_bind_serve (isInvocation_callTarget hTarget)

variable {e : Expr} {v : Instr} {code : List Instr}

/-- What lowering for an assignment gives decides what lowering for any use does: the same code first,
and then what the use makes of the value. -/
theorem expr_run_of_rhs (h : (expr scope e .assignRhs).run fresh = .ok ⟨v, code⟩ fresh') :
    (expr scope e use).run fresh = (serve scope use ⟨v, code⟩).run fresh' := by
  rw [expr_eq_bind_serve, EStateM.run_bind, h]

/-- A call without a value, left for an assignment, names its method. -/
theorem voidMethod?_of_isVoid {kind : Code.CallKind} {target : Operand} {method? : Option String}
    {arguments : List Operand} {ty : Code.Ty}
    (h : (expr scope e .assignRhs).run fresh = .ok ⟨.call kind target method? arguments ty, code⟩ fresh')
    (hVoid : ty.isVoid = true) :
    ∃ method, method? = some method ∧
      (Instr.call kind target method? arguments ty).voidMethod? = some method := by
  have hRhs : Instr.Rhs .all _ := serves_expr h
  cases hRhs with
  | newArray | newObject | arrayLength => cases hVoid
  | invocation hCall => cases hCall with | call => exact ⟨_, rfl, if_pos hVoid⟩

/-- Lowering an expression for different uses gives the same code and takes the same temporaries and
labels, up to the value: what is neither a plain operand nor taken by the use goes to the temporary
that is next, and only a call without a value cannot. -/
theorem uses_agree (h : (expr scope e .assignRhs).run fresh = .ok ⟨v, code⟩ fresh') :
    (∀ kind target method? arguments ty, v = .call kind target method? arguments ty →
      ty.isVoid = true → ∃ method, method? = some method ∧
        (expr scope e .value).run fresh =
          .error (.unsupported ("void call to '" ++ method ++ "' used as a value")) fresh') ∧
    (isPlain v = true → (expr scope e .value).run fresh = .ok ⟨v, code⟩ fresh') ∧
    (isPlain v = false → v.voidMethod? = none →
      ∃ name fresh'', scope.newTemp.run fresh' = .ok name fresh'' ∧
        (expr scope e .value).run fresh = .ok ⟨.operand (.variable name v.valueType),
          code ++ [.assign (.variable name v.valueType) v.valueType v]⟩ fresh'') ∧
    (expr scope e .condition).run fresh =
      (expr scope e (if v.isComparison then .assignRhs else .value)).run fresh ∧
    (expr scope e .discard).run fresh =
      (expr scope e (if v.isMethodCall then .assignRhs else .value)).run fresh := by
  refine ⟨?_, ?_, ?_, ?_, ?_⟩
  · rintro kind target method? arguments ty rfl hVoid
    obtain ⟨method, hMethod, hSome⟩ := voidMethod?_of_isVoid h hVoid
    refine ⟨method, hMethod, ?_⟩
    rw [expr_run_of_rhs h, serve, settle, hSome]
    rfl
  · intro hPlain
    rw [expr_run_of_rhs h, serve_of_plain hPlain]
    rfl
  · intro hPlain hVoid
    refine ⟨_, _, newTemp_run scope fresh', ?_⟩
    rw [expr_run_of_rhs h, serve, settle, hVoid]
    exact finish_run.mpr (.inr ⟨hPlain, _, newTemp_run scope fresh', rfl⟩)
  · rw [expr_run_of_rhs h, expr_run_of_rhs h, serve, serve]
    cases hTaken : v.isComparison <;> simp [Use.takes, hTaken]
  · rw [expr_run_of_rhs h, expr_run_of_rhs h, serve, serve]
    cases hTaken : v.isMethodCall <;> simp [Use.takes, hTaken]

namespace Below

/-- The scope of `static boolean below(int k, int[] xs)`. -/
def inBelow : Scope :=
  ⟨.empty "Below", ⟨"below", .boolean, [.plain "k" .int, .plain "xs" .intArray], [], true, true⟩⟩

/-- `(k < xs[0])`. -/
def test : Expr :=
  .paren (.binary .less (.ident "k" .int) (.index (.ident "xs" .intArray) (.intLiteral 0) .int)
    .boolean)

/-- The comparison, with the item in a temporary. -/
def comparison : Instr := .binary .lt (.variable "k" .int32) (.variable "tmp0" .int32) .boolean

/-- The code that reads the item. -/
def earlier : List Instr :=
  [.assign (.variable "tmp0" .int32) .int32 (.operand (.element "xs" (.int 0) .int32))]

end Below

/-- A branch takes the comparison as an assignment does, and an operand of it needs one temporary
more. -/
theorem below_uses_agree :
    (expr Below.inBelow Below.test .assignRhs).run .start = .ok ⟨Below.comparison, Below.earlier⟩ ⟨1, 0⟩ ∧
      (expr Below.inBelow Below.test .condition).run .start =
        .ok ⟨Below.comparison, Below.earlier⟩ ⟨1, 0⟩ ∧
      ∃ name fresh, Below.inBelow.newTemp.run ⟨1, 0⟩ = .ok name fresh ∧
        (expr Below.inBelow Below.test .value).run .start = .ok ⟨.operand (.variable name .boolean),
          Below.earlier ++ [.assign (.variable name .boolean) .boolean Below.comparison]⟩ fresh := by
  have hRhs : (expr Below.inBelow Below.test .assignRhs).run .start =
      .ok ⟨Below.comparison, Below.earlier⟩ ⟨1, 0⟩ := by with_unfolding_all rfl
  obtain ⟨-, -, hValue, hCondition, -⟩ := uses_agree hRhs
  exact ⟨hRhs, hCondition.trans hRhs, hValue rfl rfl⟩

end MiniJava.Lowering
