import MiniJava.Proofs.Lowering.Failures

/-! Lowered code is in three-address normal form: an instruction does one thing, with operands that cost
nothing to read. Only an assignment reads or writes an item of an array, one at a time. -/

namespace MiniJava.Code

/-- Whether none of the operands is an item of an array. Such operands can be read without looking at the
heap, whatever was done since they were evaluated. -/
def itemFree (os : List Operand) : Bool := os.all (!·.isElement)

/-- Whether the operand, if it is an item of an array, has a place that is none. Items within items would
need more than one read. -/
def Operand.isFlat : Operand → Bool
  | .element _ place _ => itemFree [place]
  | _ => true

/-- Whether values can be assigned to the operand: to a variable, or to an item of an array whose place
is no item itself. -/
def Operand.isTarget : Operand → Bool
  | .variable _ _ => true
  | .element _ place _ => itemFree [place]
  | _ => false

/-- The calls of methods and constructors; making something and asking for a length are none. Only these
may stand as statements of their own. -/
def CallKind.isInvocation : CallKind → Bool
  | .invokeSpecial | .invokeVirtual | .invokeStatic => true
  | .new | .arrayLength => false

/-- A condition reads no items, and compares if it has two operands. A branch never evaluates anything
else. -/
def Condition.isNormal : Condition → Bool
  | .single o => itemFree [o]
  | .compare op left right => op.isComparison && itemFree [left, right]

/-- Whether the instruction may stand on the right of an assignment. Of the operators only the
conjunction may not, since it becomes jumps. -/
def Instr.isRhs : Instr → Bool
  | .operand o => o.isFlat
  | .binary op left right _ => op ≠ .and && itemFree [left, right]
  | .not o _ => itemFree [o]
  | .getField object _ _ => itemFree [object]
  | .call _ receiver _ arguments _ => itemFree (receiver :: arguments)
  | _ => false

/-- Whether the instruction may stand in the body of a method. Values that nothing uses may not, apart
from those of invocations. -/
def Instr.isNormal : Instr → Bool
  | .assign dest _ rhs => dest.isTarget && rhs.isRhs
  | .putField object _ _ value => itemFree [object, value]
  | .ret value _ => itemFree value.toList
  | .branch condition _ => condition.isNormal
  | .goto _ | .label _ => true
  | .call kind receiver _ arguments _ => kind.isInvocation && itemFree (receiver :: arguments)
  | .operand _ | .binary _ _ _ _ | .not _ _ | .getField _ _ _ => false

variable {v : Vocabulary} {i : Instr}

theorem Operand.Simple.isElement {o : Operand} (h : o.Simple v) : o.isElement = false := by
  cases h <;> rfl

theorem itemFree_of_simple {os : List Operand} (h : ∀ o ∈ os, o.Simple v) : itemFree os = true :=
  List.all_eq_true.mpr fun o ho => by rw [(h o ho).isElement, Bool.not_false]

theorem itemFree_singleton {o : Operand} (h : o.Simple v) : itemFree [o] = true :=
  itemFree_of_simple (List.forall_mem_singleton.mpr h)

theorem itemFree_pair {left right : Operand} (hLeft : left.Simple v) (hRight : right.Simple v) :
    itemFree [left, right] = true :=
  itemFree_of_simple (List.forall_mem_cons.mpr ⟨hLeft, List.forall_mem_singleton.mpr hRight⟩)

theorem Condition.Formed.isNormal {c : Condition} (h : c.Formed v) : c.isNormal = true := by
  cases h with
  | single ho => exact itemFree_singleton ho
  | compare hOp hLeft hRight => exact Bool.and_eq_true_iff.mpr ⟨hOp, itemFree_pair hLeft hRight⟩

theorem CallKind.isInvocation_of_ne {kind : CallKind} (h : kind ≠ .new ∧ kind ≠ .arrayLength) :
    kind.isInvocation = true := by
  cases kind <;> simp_all [isInvocation]

/-- The right-hand sides of lowered code are those that the check allows, form by form. -/
theorem Instr.Rhs.isRhs (h : i.Rhs v) : i.isRhs = true := by
  cases h with
  | operand ho =>
      cases ho with
      | simple hSimple => cases hSimple <;> rfl
      | element _ hPlace _ => exact itemFree_singleton hPlace
  | binary hOp hLeft hRight _ =>
      exact Bool.and_eq_true_iff.mpr ⟨decide_eq_true hOp, itemFree_pair hLeft hRight⟩
  | not ho | getField ho _ _ | arrayLength ho | newArray ho => exact itemFree_singleton ho
  | newObject => rfl
  | invocation hCall =>
      cases hCall with
      | call _ hTarget _ hArguments _ =>
          exact itemFree_of_simple (List.forall_mem_cons.mpr ⟨hTarget, hArguments⟩)

/-- The instructions of lowered code are those that the check allows, form by form. -/
theorem Instr.Formed.isNormal (h : i.Formed v) : i.isNormal = true := by
  cases h with
  | assign hDest _ hRhs =>
      refine Bool.and_eq_true_iff.mpr ⟨?_, hRhs.isRhs⟩
      cases hDest with
      | «variable» => rfl
      | element _ hPlace _ => exact itemFree_singleton hPlace
  | putField hObject _ _ hValue => exact itemFree_pair hObject hValue
  | ret hValue _ => exact itemFree_of_simple fun o ho => hValue o (Option.mem_toList.mp ho)
  | branch hTest _ => exact hTest.isNormal
  | goto | label => rfl
  | invocation hCall =>
      cases hCall with
      | call hKind hTarget _ hArguments _ =>
          exact Bool.and_eq_true_iff.mpr ⟨CallKind.isInvocation_of_ne hKind,
            itemFree_of_simple (List.forall_mem_cons.mpr ⟨hTarget, hArguments⟩)⟩

end MiniJava.Code

namespace MiniJava.Lowering

open Source (Expr MethodDecl Program)

/-- Every instruction of a class that was lowered is normal. Lowering an expression of any kind for an
operand or for a condition fails only as lowering the expression itself does, and its one failure that
the program is not to blame for is an array with too many values. -/
theorem lowered_normal :
    (∀ {withConstructor : Bool} {program : Program} {unit : Code.ClassUnit},
      ofProgram withConstructor program = .ok unit →
        ∀ m ∈ unit.methods, ∀ i ∈ m.body, i.isNormal = true) ∧
    (∀ (scope : Scope) (e : Expr) {fresh fresh' : Fresh} {error : CompileError},
      (operand scope e).run fresh = .error error fresh' →
        (expr scope e .value).run fresh = .error error fresh' ∧ error.Foreseen) ∧
    (∀ (scope : Scope) (e : Expr) {fresh fresh' : Fresh} {error : CompileError},
      (condition scope e).run fresh = .error error fresh' →
        (expr scope e .condition).run fresh = .error error fresh' ∧ error.Foreseen) := by
  refine ⟨fun {_ program _} h m hm i hi => ?_, fun scope e _ _ _ h => ?_, fun scope e _ _ _ h => ?_⟩
  · exact ((formed_ofProgram program.within_all h).methods m hm).body i hi |>.isNormal
  · have hExpr := operand_error.mp h
    exact ⟨hExpr, failsForeseen_expr scope e .value hExpr⟩
  · have hExpr := condition_error.mp h
    exact ⟨hExpr, failsForeseen_expr scope e .condition hExpr⟩

namespace Scale

/-- `int scale(int[] xs, int k) { while (k < xs[0] && !done) xs[k] = (xs[k]); return xs[k] * k; }`. -/
def source : MethodDecl where
  name := "scale"
  isPublic := true
  isStatic := false
  returnType := .int
  parameters := [.plain "xs" .intArray, .plain "k" .int]
  locals := []
  body := [
    .loop (.binary .and (.binary .less k (item (.intLiteral 0)) .boolean)
      (.not (.ident "done" .boolean)) .boolean) (.assign (item k) (.paren (item k))),
    .ret (some (.binary .mul (item k) k .int))]
where
  k : Expr := .ident "k" .int
  item (place : Expr) : Expr := .index (.ident "xs" .intArray) place .int

/-- The method in a class with the field `done`. -/
def program : Program := ⟨[], ⟨"Scale", none, [.plain "done" .boolean], [source]⟩⟩

/-- The scope of `scale` in its class. -/
def scope : Scope := ⟨.ofProgram program, .ofMethod source⟩

/-- `k < limit`, where there is no `limit`. -/
def test : Expr := .binary .less source.k (.ident "limit" .int) .boolean

theorem lowered : ∃ unit m, ofProgram true program = .ok unit ∧ unit.methods = [m] ∧
    m.body.length = 27 := by
  refine ⟨_, _, rfl, rfl, ?_⟩
  decide

end Scale

/-- A loop that copies an item, with `&&` in its test, and a test that does not lower. -/
theorem scale_normal :
    (∃ unit m, ofProgram true Scale.program = .ok unit ∧ unit.methods = [m] ∧ m.body.length = 27 ∧
      ∀ i ∈ m.body, i.isNormal = true) ∧
    ∃ error, error = Scale.scope.unresolvedVariable "limit" ∧
      (operand Scale.scope Scale.test).run .start = .error error .start ∧
      (condition Scale.scope Scale.test).run .start = .error error .start ∧
      (expr Scale.scope Scale.test .condition).run .start = .error error .start ∧ error.Foreseen := by
  obtain ⟨hNormal, -, hCondition⟩ := lowered_normal
  obtain ⟨unit, m, hLowered, hMethods, hLength⟩ := Scale.lowered
  have hm : m ∈ unit.methods := hMethods ▸ List.mem_singleton_self m
  have hTest : (condition Scale.scope Scale.test).run .start =
      .error (Scale.scope.unresolvedVariable "limit") .start := rfl
  refine ⟨⟨unit, m, hLowered, hMethods, hLength, hNormal hLowered m hm⟩, _, rfl, rfl, hTest, ?_⟩
  exact hCondition _ _ hTest

end MiniJava.Lowering
