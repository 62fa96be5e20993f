import MiniJava.Assembly.Class
import MiniJava.Lowering.Unit
import Mathlib.Tactic.SplitIfs

/-! What a successful selection of stack code did, one theorem for each form of instruction. Later
proofs read selection through these theorems and do not unfold it. -/

namespace MiniJava

/-- A sequence of two steps succeeds exactly if the first one does and the second one does with its
result. All selections are taken apart by this and by its like for steps with progress. -/
theorem except_bind_ok {ε α β : Type} {x : Except ε α} {k : α → Except ε β} {b : β} :
    (x >>= k) = .ok b ↔ ∃ a, x = .ok a ∧ k a = .ok b := by
  cases x with
  | ok a =>
      constructor
      · exact fun h => ⟨a, rfl, h⟩
      · rintro ⟨_, ⟨⟩, h⟩
        exact h
  | error e =>
      constructor
      · intro h
        cases h
      · rintro ⟨_, ⟨⟩, _⟩

theorem except_pure_ok {ε α : Type} {a b : α} : (pure a : Except ε α) = .ok b ↔ b = a := by
  constructor
  · intro h
    cases h
    rfl
  · rintro rfl
    rfl

end MiniJava

namespace MiniJava.Assembly

open Code (CallKind Condition Method Operand Ty)
open Stack (ElementKind Kind loadSlot pushInt storeSlot)

/-- Steps of selection one after the other: the second one goes on with the progress of the first, and
both succeed. -/
theorem select_bind_ok {α β : Type} {x : Select α} {k : α → Select β} {p p' : Progress} {b : β} :
    (x >>= k).run p = .ok (b, p') ↔ ∃ a p₁, x.run p = .ok (a, p₁) ∧ (k a).run p₁ = .ok (b, p') := by
  rw [StateT.run_bind, except_bind_ok, Prod.exists]

theorem select_pure_ok {α : Type} {a b : α} {p p' : Progress} :
    (pure a : Select α).run p = .ok (b, p') ↔ b = a ∧ p' = p := by
  rw [StateT.run_pure, except_pure_ok, Prod.mk.injEq]

/-- Steps that cannot change the progress do not, and what they give does not depend on it. -/
theorem select_lift_ok {α : Type} {x : Except CompileError α} {a : α} {p p' : Progress} :
    (liftM x : Select α).run p = .ok (a, p') ↔ x = .ok a ∧ p' = p := by
  have hRun : (liftM x : Select α).run p = x >>= fun a => pure (a, p) := rfl
  rw [hRun, except_bind_ok]
  constructor
  · rintro ⟨b, hx, hb⟩
    obtain ⟨rfl, rfl⟩ := Prod.mk.inj (except_pure_ok.mp hb)
    exact ⟨hx, rfl⟩
  · rintro ⟨hx, rfl⟩
    exact ⟨a, hx, rfl⟩

theorem select_throw_ok {α : Type} {e : CompileError} {r : α × Progress} {p : Progress} :
    ¬(throw e : Select α).run p = .ok r := by
  intro h
  cases h

/-- The labels of the comparison with this number: one for the case that it holds, and one behind both
cases. -/
def comparisonLabels (id : Nat) : String × String :=
  ("cmp_" ++ toString id ++ "_true", "cmp_" ++ toString id ++ "_end")

theorem newComparisonLabels_run (p : Progress) :
    newComparisonLabels.run p =
      .ok (comparisonLabels p.comparisons, { p with comparisons := p.comparisons + 1 }) := rfl

/-- The object of a variable that waits is noted by the name of the variable, once at most. -/
theorem markPending_run (name : String) (p : Progress) :
    (markPending name).run p =
      .ok ((), { p with pending := name :: p.pending.filter (· ≠ name) }) := rfl

/-- Taking an object tells whether it waited, and it waits no longer in either case. -/
theorem takePending_run (name : String) (p : Progress) :
    (takePending name).run p =
      .ok (p.pending.contains name, { p with pending := p.pending.filter (· ≠ name) }) := rfl

/-- Members are those of the class itself on the receiver of the method, and else those of the class
that the type of the operand names. -/
theorem ClassScope.classOf_ok {scope : ClassScope} {o : Operand} {className : String} :
    scope.classOf o = .ok className ↔
      (∃ ty, o = .self ty ∧ className = scope.unit.name) ∨
      (∃ name, (∀ ty, o ≠ .self ty) ∧ o.ty = .object name ∧
        className = qualify scope.unit name) ∨
      ((∀ ty, o ≠ .self ty) ∧ o.ty = .string ∧ className = stringClass) := by
  cases o with
  | self ty => simp [classOf, eq_comm]
  | classRef name => simp [classOf, Operand.ty, eq_comm]
  | literal _ ty | «variable» _ ty | element _ _ ty =>
      cases ty <;> simp [classOf, Operand.ty, eq_comm]

/-- A field is referred to if the operand gives access to a class; whether that class has the field is
not asked. -/
theorem ClassScope.fieldRef_ok {scope : ClassScope} {object : Operand} {field : String} {ty : Ty}
    {ref : Stack.FieldRef} :
    scope.fieldRef object field ty = .ok ref ↔
      ∃ className, scope.classOf object = .ok className ∧
        ref = ⟨className, field, scope.descriptor ty⟩ := by
  simp only [fieldRef, except_bind_ok, except_pure_ok]

/-- The parameters of the method that a call refers to, by the parameters of those that the class
declares. -/
theorem ClassScope.methodRef_parameterTypes (scope : ClassScope) (className name : String)
    (arguments : List Operand) :
    methodRef.parameterTypes scope className name arguments =
      (if className = scope.unit.name then
        ((scope.unit.method? name).map Method.parameterTypes).filter (·.length = arguments.length)
      else none).getD (arguments.map Operand.ty) := by
  unfold methodRef.parameterTypes methodRef.declared?
  split_ifs with hOwn
  · cases scope.unit.method? name with
    | none => rfl
    | some m =>
        rw [Option.map_some, Option.filter_some, Option.filter_some, Method.parameterTypes,
          List.length_map]
        by_cases hLength : m.parameters.length = arguments.length
        · simp [hLength, Method.parameterTypes]
        · simp [hLength]
  · rfl

namespace Site

variable {site : Site} {p p' : Progress} {code : List Stack.Instr}

/-- A site has just the slots of its frame, and the error names the method and the variable otherwise. -/
theorem slot_ok {name : String} {slot : UInt16} :
    site.slot name = .ok slot ↔ site.frame.slot? name = some slot := by
  unfold Site.slot
  split
  · rename_i found hFound
    rw [hFound, Except.ok.injEq, Option.some.injEq]
  · rename_i hNone
    simp [hNone]

theorem load_literal_ok {value : Int32} {ty : Ty} :
    site.load (.literal value ty) = .ok code ↔ code = [pushInt value] := by
  rw [load, Except.ok.injEq, eq_comm]

theorem load_variable_ok {name : String} {ty : Ty} :
    site.load (.variable name ty) = .ok code ↔
      ∃ kind slot, kindOf ty = .ok kind ∧ site.slot name = .ok slot ∧
        code = [loadSlot kind slot] := by
  simp only [load, except_bind_ok, except_pure_ok]
  constructor
  · rintro ⟨kind, hKind, slot, hSlot, rfl⟩
    exact ⟨kind, slot, hKind, hSlot, rfl⟩
  · rintro ⟨kind, slot, hKind, hSlot, rfl⟩
    exact ⟨kind, hKind, slot, hSlot, rfl⟩

theorem load_element_ok {array : String} {place : Operand} {ty : Ty} :
    site.load (.element array place ty) = .ok code ↔
      ∃ kind slot placeCode, elementKindOf ty = .ok kind ∧ site.slot array = .ok slot ∧
        site.load place = .ok placeCode ∧
        code = loadSlot .reference slot :: placeCode ++ [.arrayLoad kind] := by
  simp only [load, except_bind_ok, except_pure_ok]
  constructor
  · rintro ⟨kind, hKind, slot, hSlot, placeCode, hPlace, rfl⟩
    exact ⟨kind, slot, placeCode, hKind, hSlot, hPlace, rfl⟩
  · rintro ⟨kind, slot, placeCode, hKind, hSlot, hPlace, rfl⟩
    exact ⟨kind, hKind, slot, hSlot, placeCode, hPlace, rfl⟩

theorem load_self_ok {ty : Ty} :
    site.load (.self ty) = .ok code ↔
      site.method.isStatic = false ∧ code = [loadSlot .reference 0] := by
  rw [load]
  split
  · rename_i hStatic
    simp [hStatic]
  · rename_i hStatic
    simp [hStatic, eq_comm]

theorem load_classRef_ok {name : String} : ¬site.load (.classRef name) = .ok code := by
  intro h
  cases h

theorem loadAll_nil_ok : site.loadAll [] = .ok code ↔ code = [] := by
  rw [loadAll, List.mapM_nil, pure_bind, except_pure_ok, List.flatten_nil]

theorem loadAll_cons_ok {o : Operand} {rest : List Operand} :
    site.loadAll (o :: rest) = .ok code ↔
      ∃ first others, site.load o = .ok first ∧ site.loadAll rest = .ok others ∧
        code = first ++ others := by
  simp only [loadAll, List.mapM_cons, except_bind_ok, except_pure_ok]
  constructor
  · rintro ⟨_, ⟨first, hFirst, others, hOthers, rfl⟩, rfl⟩
    exact ⟨first, _, hFirst, ⟨others, hOthers, rfl⟩, rfl⟩
  · rintro ⟨first, _, hFirst, ⟨others, hOthers, rfl⟩, rfl⟩
    exact ⟨_, ⟨first, hFirst, others, hOthers, rfl⟩, rfl⟩

/-- The instruction of an operator that is no comparison. The conjunction has one as well, for operands
that are there already. -/
def arithmetic? : Code.BinaryOp → Option Stack.Arithmetic
  | .add => some .add
  | .sub => some .sub
  | .mul => some .mul
  | .div => some .div
  | .and => some .and
  | .lt | .gt | .le | .ge => none

private theorem comparison_run {op : Code.BinaryOp} {operands : List Stack.Instr} :
    (do
      let comparison ← liftM (comparisonOf op)
      let labels ← newComparisonLabels
      pure (operands ++ comparisonCode comparison labels) : Select (List Stack.Instr)).run p =
        .ok (code, p') ↔
      ∃ comparison, comparisonOf op = .ok comparison ∧
        p' = { p with comparisons := p.comparisons + 1 } ∧
        code = operands ++ comparisonCode comparison (comparisonLabels p.comparisons) := by
  simp only [select_bind_ok, select_lift_ok, newComparisonLabels_run, select_pure_ok]
  constructor
  · rintro ⟨comparison, _, ⟨hComparison, rfl⟩, _, _, ⟨⟩, rfl, rfl⟩
    exact ⟨comparison, hComparison, rfl, rfl⟩
  · rintro ⟨comparison, hComparison, rfl, rfl⟩
    exact ⟨comparison, p, ⟨hComparison, rfl⟩, _, _, rfl, rfl, rfl⟩

/-- An operator is an instruction of its own behind its operands, or it is a comparison with new labels.
There is no third case. -/
theorem binary_run {op : Code.BinaryOp} {left right : Operand} :
    (site.binary op left right).run p = .ok (code, p') ↔
      ∃ leftCode rightCode, site.load left = .ok leftCode ∧ site.load right = .ok rightCode ∧
        ((∃ arithmetic, arithmetic? op = some arithmetic ∧ p' = p ∧
          code = leftCode ++ rightCode ++ [.arithmetic arithmetic]) ∨
        (∃ comparison, comparisonOf op = .ok comparison ∧
          p' = { p with comparisons := p.comparisons + 1 } ∧
          code = leftCode ++ rightCode ++
            comparisonCode comparison (comparisonLabels p.comparisons))) := by
  simp only [binary, select_bind_ok, select_lift_ok]
  constructor
  · rintro ⟨leftCode, _, ⟨hLeft, rfl⟩, rightCode, _, ⟨hRight, rfl⟩, hRun⟩
    refine ⟨leftCode, rightCode, hLeft, hRight, ?_⟩
    cases op
    case add | sub | mul | div | and =>
      obtain ⟨rfl, rfl⟩ := select_pure_ok.mp hRun
      exact .inl ⟨_, rfl, rfl, rfl⟩
    case lt | gt | le | ge =>
      exact .inr (comparison_run.mp hRun)
  · rintro ⟨leftCode, rightCode, hLeft, hRight, hRun⟩
    refine ⟨leftCode, p, ⟨hLeft, rfl⟩, rightCode, p, ⟨hRight, rfl⟩, ?_⟩
    rcases hRun with ⟨arithmetic, hOp, rfl, rfl⟩ | hRun
    · cases op <;> cases hOp <;> rfl
    · cases op
      case add | sub | mul | div | and =>
        obtain ⟨_, hComparison, _⟩ := hRun
        cases hComparison
      case lt | gt | le | ge =>
        exact comparison_run.mpr hRun

theorem methodName_ok {call : Code.Instr} {method : Option String} {name : String} :
    methodName call method = .ok name ↔ method = some name := by
  cases method <;> simp [methodName]

/-- An invocation succeeds where its arguments can be loaded. Whether it pushes a value is read off the
descriptor of the result. -/
theorem invocation_ok {kind : Stack.InvokeKind} {className name : String}
    {receiverCode : List Stack.Instr} {arguments : List Operand} {returnType : Ty} {pushes : Bool} :
    site.invocation kind className name receiverCode arguments returnType = .ok (code, pushes) ↔
      ∃ argumentCode, site.loadAll arguments = .ok argumentCode ∧
        code = receiverCode ++ argumentCode ++
          [.invoke kind (site.scope.methodRef className name arguments returnType)] ∧
        pushes = (site.scope.methodRef className name arguments returnType).returnsValue := by
  simp only [invocation, except_bind_ok, except_pure_ok, Prod.mk.injEq]

/-- The object of a variable that waits for its constructor is on the stack already. -/
theorem specialReceiver_run {receiver : Operand} {className : String} :
    (site.specialReceiver receiver).run p = .ok ((className, code), p') ↔
      (∃ name ty, receiver = .variable name ty ∧ p.pending.contains name = true ∧
        site.scope.classOf receiver = .ok className ∧ code = [] ∧
        p' = { p with pending := p.pending.filter (· ≠ name) }) ∨
      (∃ name ty, receiver = .variable name ty ∧ p.pending.contains name = false ∧
        site.scope.classOf receiver = .ok className ∧ site.load receiver = .ok code ∧
        p' = { p with pending := p.pending.filter (· ≠ name) }) ∨
      (∃ ty, receiver = .self ty ∧ className = site.scope.superName ∧
        site.load receiver = .ok code ∧ p' = p) ∨
      ((∀ name ty, receiver ≠ .variable name ty) ∧ (∀ ty, receiver ≠ .self ty) ∧
        site.scope.classOf receiver = .ok className ∧ site.load receiver = .ok code ∧ p' = p) := by
  cases receiver with
  | «variable» name ty =>
      simp only [specialReceiver, select_bind_ok, takePending_run]
      constructor
      · rintro ⟨_, _, ⟨⟩, hRun⟩
        split at hRun
        · rename_i hPending
          simp only [select_bind_ok, select_lift_ok, select_pure_ok, Prod.mk.injEq] at hRun
          obtain ⟨_, _, ⟨hClass, rfl⟩, ⟨rfl, rfl⟩, rfl⟩ := hRun
          exact .inl ⟨name, ty, rfl, hPending, hClass, rfl, rfl⟩
        · rename_i hPending
          rw [Bool.not_eq_true] at hPending
          simp only [select_bind_ok, select_lift_ok, select_pure_ok, Prod.mk.injEq] at hRun
          obtain ⟨_, _, ⟨hClass, rfl⟩, _, _, ⟨hLoad, rfl⟩, ⟨rfl, rfl⟩, rfl⟩ := hRun
          exact .inr (.inl ⟨name, ty, rfl, hPending, hClass, hLoad, rfl⟩)
      · rintro (⟨_, _, ⟨⟩, hPending, hClass, rfl, rfl⟩ | ⟨_, _, ⟨⟩, hPending, hClass, hLoad, rfl⟩ |
          ⟨_, ⟨⟩, _⟩ | ⟨hNot, _⟩)
        · refine ⟨_, _, rfl, ?_⟩
          rw [if_pos hPending]
          simp only [select_bind_ok, select_lift_ok, select_pure_ok]
          exact ⟨_, _, ⟨hClass, rfl⟩, rfl, rfl⟩
        · refine ⟨_, _, rfl, ?_⟩
          rw [if_neg (by rw [hPending]; exact Bool.false_ne_true)]
          simp only [select_bind_ok, select_lift_ok, select_pure_ok]
          exact ⟨_, _, ⟨hClass, rfl⟩, _, _, ⟨hLoad, rfl⟩, rfl, rfl⟩
        · exact (hNot name ty rfl).elim
  | self ty =>
      simp only [specialReceiver, select_bind_ok, select_lift_ok, select_pure_ok, Prod.mk.injEq]
      constructor
      · rintro ⟨_, _, ⟨hLoad, rfl⟩, ⟨rfl, rfl⟩, rfl⟩
        exact .inr (.inr (.inl ⟨ty, rfl, rfl, hLoad, rfl⟩))
      · rintro (⟨_, _, ⟨⟩, _⟩ | ⟨_, _, ⟨⟩, _⟩ | ⟨_, ⟨⟩, rfl, hLoad, rfl⟩ | ⟨_, hNot, _⟩)
        · exact ⟨_, _, ⟨hLoad, rfl⟩, ⟨rfl, rfl⟩, rfl⟩
        · exact (hNot ty rfl).elim
  | literal | element | classRef =>
      simp only [specialReceiver, select_bind_ok, select_lift_ok, select_pure_ok, Prod.mk.injEq]
      constructor
      · rintro ⟨_, _, ⟨hClass, rfl⟩, _, _, ⟨hLoad, rfl⟩, ⟨rfl, rfl⟩, rfl⟩
        exact .inr (.inr (.inr ⟨nofun, nofun, hClass, hLoad, rfl⟩))
      · rintro (⟨_, _, ⟨⟩, _⟩ | ⟨_, _, ⟨⟩, _⟩ | ⟨_, ⟨⟩, _⟩ | ⟨_, _, hClass, hLoad, rfl⟩)
        exact ⟨_, _, ⟨hClass, rfl⟩, _, _, ⟨hLoad, rfl⟩, ⟨rfl, rfl⟩, rfl⟩

theorem newArray_ok {call : Code.Instr} {arguments : List Operand} {returnType : Ty} :
    site.newArray call arguments returnType = .ok code ↔
      returnType.element? = some .int32 ∧ ∃ size sizeCode, arguments = [size] ∧
        site.load size = .ok sizeCode ∧ code = sizeCode ++ [.newIntArray] := by
  unfold newArray
  split
  · rename_i hElement
    split
    · simp only [hElement, except_bind_ok, except_pure_ok, true_and]
      constructor
      · rintro ⟨sizeCode, hLoad, rfl⟩
        exact ⟨_, sizeCode, rfl, hLoad, rfl⟩
      · rintro ⟨_, sizeCode, ⟨⟩, hLoad, rfl⟩
        exact ⟨sizeCode, hLoad, rfl⟩
    · rename_i hNot
      constructor
      · intro h
        cases h
      · rintro ⟨_, size, _, rfl, _⟩
        exact (hNot size rfl).elim
  · rename_i hElement
    constructor
    · intro h
      cases h
    · exact fun h => (hElement h.1).elim

section Calls

variable {receiver : Operand} {method : Option String} {arguments : List Operand} {returnType : Ty}
  {pushes : Bool}

theorem call_newArray_run (hArray : returnType.isArray = true) :
    (site.call (.call .new receiver method arguments returnType)).run p =
        .ok ((code, pushes), p') ↔
      site.newArray (.call .new receiver method arguments returnType) arguments returnType =
        .ok code ∧ pushes = true ∧ p' = p := by
  simp only [call, hArray, if_true, select_bind_ok, select_lift_ok, select_pure_ok, Prod.mk.injEq]
  constructor
  · rintro ⟨_, _, ⟨hNew, rfl⟩, ⟨rfl, rfl⟩, rfl⟩
    exact ⟨hNew, rfl, rfl⟩
  · rintro ⟨hNew, rfl, rfl⟩
    exact ⟨_, _, ⟨hNew, rfl⟩, ⟨rfl, rfl⟩, rfl⟩

/-- An allocation of any other type makes an object of the class of its receiver, which has not been
constructed yet. -/
theorem call_newObject_run (hArray : returnType.isArray = false) :
    (site.call (.call .new receiver method arguments returnType)).run p =
        .ok ((code, pushes), p') ↔
      ∃ className, site.scope.classOf receiver = .ok className ∧ code = [.new className] ∧
        pushes = true ∧ p' = p := by
  simp only [call, hArray, Bool.false_eq_true, if_false, select_bind_ok, select_lift_ok,
    select_pure_ok, Prod.mk.injEq]
  constructor
  · rintro ⟨className, _, ⟨hClass, rfl⟩, ⟨rfl, rfl⟩, rfl⟩
    exact ⟨className, hClass, rfl, rfl, rfl⟩
  · rintro ⟨className, hClass, rfl, rfl, rfl⟩
    exact ⟨className, _, ⟨hClass, rfl⟩, ⟨rfl, rfl⟩, rfl⟩

/-- The length is asked of the receiver alone. Whatever method or arguments the call names, no code comes
of them. -/
theorem call_arrayLength_run :
    (site.call (.call .arrayLength receiver method arguments returnType)).run p =
        .ok ((code, pushes), p') ↔
      ∃ receiverCode, site.load receiver = .ok receiverCode ∧
        code = receiverCode ++ [.arrayLength] ∧ pushes = true ∧ p' = p := by
  simp only [call, select_bind_ok, select_lift_ok, select_pure_ok, Prod.mk.injEq]
  constructor
  · rintro ⟨receiverCode, _, ⟨hLoad, rfl⟩, ⟨rfl, rfl⟩, rfl⟩
    exact ⟨receiverCode, hLoad, rfl, rfl, rfl⟩
  · rintro ⟨receiverCode, hLoad, rfl, rfl, rfl⟩
    exact ⟨receiverCode, _, ⟨hLoad, rfl⟩, ⟨rfl, rfl⟩, rfl⟩

theorem call_invokeStatic_run :
    (site.call (.call .invokeStatic receiver method arguments returnType)).run p =
        .ok ((code, pushes), p') ↔
      ∃ className name, site.scope.classOf receiver = .ok className ∧ method = some name ∧
        site.invocation .static className name [] arguments returnType = .ok (code, pushes) ∧
        p' = p := by
  simp only [call, select_bind_ok, select_lift_ok, methodName_ok]
  constructor
  · rintro ⟨className, _, ⟨hClass, rfl⟩, name, _, ⟨hName, rfl⟩, hCode, rfl⟩
    exact ⟨className, name, hClass, hName, hCode, rfl⟩
  · rintro ⟨className, name, hClass, hName, hCode, rfl⟩
    exact ⟨className, _, ⟨hClass, rfl⟩, name, _, ⟨hName, rfl⟩, hCode, rfl⟩

theorem call_invokeVirtual_run :
    (site.call (.call .invokeVirtual receiver method arguments returnType)).run p =
        .ok ((code, pushes), p') ↔
      ∃ className name receiverCode, site.scope.classOf receiver = .ok className ∧
        method = some name ∧ site.load receiver = .ok receiverCode ∧
        site.invocation .virtual className name receiverCode arguments returnType =
          .ok (code, pushes) ∧
        p' = p := by
  simp only [call, select_bind_ok, select_lift_ok, methodName_ok]
  constructor
  · rintro ⟨className, _, ⟨hClass, rfl⟩, name, _, ⟨hName, rfl⟩, receiverCode, _, ⟨hLoad, rfl⟩,
      hCode, rfl⟩
    exact ⟨className, name, receiverCode, hClass, hName, hLoad, hCode, rfl⟩
  · rintro ⟨className, name, receiverCode, hClass, hName, hLoad, hCode, rfl⟩
    exact ⟨className, _, ⟨hClass, rfl⟩, name, _, ⟨hName, rfl⟩, receiverCode, _, ⟨hLoad, rfl⟩,
      hCode, rfl⟩

/-- A special call takes its receiver from the stack where the object waits there, and loads it
otherwise. -/
theorem call_invokeSpecial_run :
    (site.call (.call .invokeSpecial receiver method arguments returnType)).run p =
        .ok ((code, pushes), p') ↔
      ∃ name className receiverCode, method = some name ∧
        (site.specialReceiver receiver).run p = .ok ((className, receiverCode), p') ∧
        site.invocation .special className name receiverCode arguments returnType =
          .ok (code, pushes) := by
  simp only [call, select_bind_ok, select_lift_ok, methodName_ok, Prod.exists]
  constructor
  · rintro ⟨name, _, ⟨hName, rfl⟩, className, receiverCode, _, hReceiver, hCode, rfl⟩
    exact ⟨name, className, receiverCode, hName, hReceiver, hCode⟩
  · rintro ⟨name, className, receiverCode, hName, hReceiver, hCode⟩
    exact ⟨name, _, ⟨hName, rfl⟩, className, receiverCode, _, hReceiver, hCode, rfl⟩

end Calls

/-- The result of a call that is made for what it does is dropped, if there is one, by one more
instruction. -/
theorem callStatement_run {i : Code.Instr} :
    (site.callStatement i).run p = .ok (code, p') ↔
      ∃ callCode pushes, (site.call i).run p = .ok ((callCode, pushes), p') ∧
        code = if pushes then callCode ++ [.pop] else callCode := by
  simp only [callStatement, select_bind_ok, select_pure_ok, Prod.exists]
  constructor
  · rintro ⟨callCode, pushes, _, hCall, rfl, rfl⟩
    exact ⟨callCode, pushes, hCall, rfl⟩
  · rintro ⟨callCode, pushes, hCall, rfl⟩
    exact ⟨callCode, pushes, _, hCall, rfl, rfl⟩

theorem callValue_run {i : Code.Instr} :
    (site.callValue i).run p = .ok (code, p') ↔ (site.call i).run p = .ok ((code, true), p') := by
  simp only [callValue, select_bind_ok, Prod.exists]
  constructor
  · rintro ⟨callCode, pushes, _, hCall, hRun⟩
    cases pushes with
    | true =>
        obtain ⟨rfl, rfl⟩ := select_pure_ok.mp hRun
        exact hCall
    | false => exact (select_throw_ok hRun).elim
  · exact fun hCall => ⟨code, true, p', hCall, select_pure_ok.mpr ⟨rfl, rfl⟩⟩

theorem value_operand_run {o : Operand} :
    (site.value (.operand o)).run p = .ok (code, p') ↔ site.load o = .ok code ∧ p' = p :=
  select_lift_ok

theorem value_binary (op : Code.BinaryOp) (left right : Operand) (ty : Ty) :
    site.value (.binary op left right ty) = site.binary op left right := rfl

theorem value_call (kind : CallKind) (receiver : Operand) (method : Option String)
    (arguments : List Operand) (returnType : Ty) :
    site.value (.call kind receiver method arguments returnType) =
      site.callValue (.call kind receiver method arguments returnType) := rfl

theorem value_not_run {o : Operand} {ty : Ty} :
    (site.value (.not o ty)).run p = .ok (code, p') ↔
      ∃ operandCode, site.load o = .ok operandCode ∧
        code = operandCode ++ [pushInt 1, .arithmetic .xor] ∧ p' = p := by
  simp only [value, select_bind_ok, select_lift_ok, select_pure_ok]
  constructor
  · rintro ⟨operandCode, _, ⟨hLoad, rfl⟩, rfl, rfl⟩
    exact ⟨operandCode, hLoad, rfl, rfl⟩
  · rintro ⟨operandCode, hLoad, rfl, rfl⟩
    exact ⟨operandCode, _, ⟨hLoad, rfl⟩, rfl, rfl⟩

theorem value_getField_run {object : Operand} {field : String} {ty : Ty} :
    (site.value (.getField object field ty)).run p = .ok (code, p') ↔
      ∃ fieldRef objectCode, site.scope.fieldRef object field ty = .ok fieldRef ∧
        site.load object = .ok objectCode ∧ code = objectCode ++ [.getField fieldRef] ∧ p' = p := by
  simp only [value, select_bind_ok, select_lift_ok, select_pure_ok]
  constructor
  · rintro ⟨fieldRef, _, ⟨hField, rfl⟩, objectCode, _, ⟨hLoad, rfl⟩, rfl, rfl⟩
    exact ⟨fieldRef, objectCode, hField, hLoad, rfl, rfl⟩
  · rintro ⟨fieldRef, objectCode, hField, hLoad, rfl, rfl⟩
    exact ⟨fieldRef, _, ⟨hField, rfl⟩, objectCode, _, ⟨hLoad, rfl⟩, rfl, rfl⟩

/-- A new object stays on the stack beside its variable. It is the only code that leaves the stack deeper
than it was. -/
theorem assign_newObject_run {name : String} {ty : Ty} {rhs : Code.Instr} {receiver : Operand}
    (hNew : allocated? rhs = some receiver) :
    (site.assign (.variable name ty) rhs).run p = .ok (code, p') ↔
      ∃ slot className, site.slot name = .ok slot ∧ site.scope.classOf receiver = .ok className ∧
        code = [.new className, .dup, storeSlot .reference slot] ∧
        p' = { p with pending := name :: p.pending.filter (· ≠ name) } := by
  simp only [assign, hNew, select_bind_ok, select_lift_ok, select_pure_ok, markPending_run]
  constructor
  · rintro ⟨slot, _, ⟨hSlot, rfl⟩, className, _, ⟨hClass, rfl⟩, _, _, ⟨⟩, rfl, rfl⟩
    exact ⟨slot, className, hSlot, hClass, rfl, rfl⟩
  · rintro ⟨slot, className, hSlot, hClass, rfl, rfl⟩
    exact ⟨slot, _, ⟨hSlot, rfl⟩, className, _, ⟨hClass, rfl⟩, (), _, rfl, rfl, rfl⟩

/-- Other values are stored and leave nothing behind. The slot is asked for before the value is selected,
which decides between errors. -/
theorem assign_variable_run {name : String} {ty : Ty} {rhs : Code.Instr}
    (hNew : allocated? rhs = none) :
    (site.assign (.variable name ty) rhs).run p = .ok (code, p') ↔
      ∃ slot valueCode kind, site.slot name = .ok slot ∧
        (site.value rhs).run p = .ok (valueCode, p') ∧ kindOf ty = .ok kind ∧
        code = valueCode ++ [storeSlot kind slot] := by
  simp only [assign, hNew, select_bind_ok, select_lift_ok, select_pure_ok]
  constructor
  · rintro ⟨slot, _, ⟨hSlot, rfl⟩, valueCode, _, hValue, kind, _, ⟨hKind, rfl⟩, rfl, rfl⟩
    exact ⟨slot, valueCode, kind, hSlot, hValue, hKind, rfl⟩
  · rintro ⟨slot, valueCode, kind, hSlot, hValue, hKind, rfl⟩
    exact ⟨slot, _, ⟨hSlot, rfl⟩, valueCode, _, hValue, kind, _, ⟨hKind, rfl⟩, rfl, rfl⟩

/-- An item is stored over its array and its place, with code for both before that of the value. -/
theorem assign_element_run {array : String} {place : Operand} {ty : Ty} {rhs : Code.Instr} :
    (site.assign (.element array place ty) rhs).run p = .ok (code, p') ↔
      ∃ kind slot placeCode valueCode, elementKindOf ty = .ok kind ∧ site.slot array = .ok slot ∧
        site.load place = .ok placeCode ∧ (site.value rhs).run p = .ok (valueCode, p') ∧
        code = loadSlot .reference slot :: placeCode ++ valueCode ++ [.arrayStore kind] := by
  simp only [assign, select_bind_ok, select_lift_ok, select_pure_ok]
  constructor
  · rintro ⟨kind, _, ⟨hKind, rfl⟩, slot, _, ⟨hSlot, rfl⟩, placeCode, _, ⟨hPlace, rfl⟩, valueCode, _,
      hValue, rfl, rfl⟩
    exact ⟨kind, slot, placeCode, valueCode, hKind, hSlot, hPlace, hValue, rfl⟩
  · rintro ⟨kind, slot, placeCode, valueCode, hKind, hSlot, hPlace, hValue, rfl⟩
    exact ⟨kind, _, ⟨hKind, rfl⟩, slot, _, ⟨hSlot, rfl⟩, placeCode, _, ⟨hPlace, rfl⟩, valueCode, _,
      hValue, rfl, rfl⟩

theorem ret_none_ok {ty : Ty} : site.ret none ty = .ok code ↔ code = [.ret] := by
  rw [ret, except_pure_ok]

theorem ret_some_ok {value : Operand} {ty : Ty} :
    site.ret (some value) ty = .ok code ↔
      ∃ valueCode kind, site.load value = .ok valueCode ∧ kindOf ty = .ok kind ∧
        code = valueCode ++ [.retValue kind] := by
  unfold ret
  simp only
  split
  · rename_i hVoid
    constructor
    · intro h
      cases h
    · rintro ⟨_, kind, _, hKind, _⟩
      cases ty <;> cases hVoid
      cases hKind
  · simp only [except_bind_ok, except_pure_ok]
    constructor
    · rintro ⟨valueCode, hLoad, kind, hKind, rfl⟩
      exact ⟨valueCode, kind, hLoad, hKind, rfl⟩
    · rintro ⟨valueCode, kind, hLoad, hKind, rfl⟩
      exact ⟨valueCode, hLoad, kind, hKind, rfl⟩

theorem branch_single_ok {o : Operand} {target : String} :
    site.branch (.single o) target = .ok code ↔
      ∃ operandCode, site.load o = .ok operandCode ∧ code = operandCode ++ [.ifZero .ne target] := by
  simp only [branch, except_bind_ok, except_pure_ok]

/-- A condition that compares jumps by the comparison itself, without making a truth value of it. -/
theorem branch_compare_ok {op : Code.BinaryOp} {left right : Operand} {target : String} :
    site.branch (.compare op left right) target = .ok code ↔
      ∃ comparison leftCode rightCode, comparisonOf op = .ok comparison ∧
        site.load left = .ok leftCode ∧ site.load right = .ok rightCode ∧
        code = leftCode ++ rightCode ++ [.ifInts comparison target] := by
  simp only [branch, except_bind_ok, except_pure_ok]
  constructor
  · rintro ⟨comparison, hComparison, leftCode, hLeft, rightCode, hRight, rfl⟩
    exact ⟨comparison, leftCode, rightCode, hComparison, hLeft, hRight, rfl⟩
  · rintro ⟨comparison, leftCode, rightCode, hComparison, hLeft, hRight, rfl⟩
    exact ⟨comparison, hComparison, leftCode, hLeft, rightCode, hRight, rfl⟩

theorem instr_assign (dest : Operand) (ty : Ty) (rhs : Code.Instr) :
    site.instr (.assign dest ty rhs) = site.assign dest rhs := rfl

theorem instr_putField_run {object value : Operand} {field : String} {ty : Ty} :
    (site.instr (.putField object field ty value)).run p = .ok (code, p') ↔
      ∃ fieldRef objectCode valueCode, site.scope.fieldRef object field ty = .ok fieldRef ∧
        site.load object = .ok objectCode ∧ site.load value = .ok valueCode ∧
        code = objectCode ++ valueCode ++ [.putField fieldRef] ∧ p' = p := by
  simp only [instr, select_bind_ok, select_lift_ok, select_pure_ok]
  constructor
  · rintro ⟨fieldRef, _, ⟨hField, rfl⟩, objectCode, _, ⟨hObject, rfl⟩, valueCode, _, ⟨hValue, rfl⟩,
      rfl, rfl⟩
    exact ⟨fieldRef, objectCode, valueCode, hField, hObject, hValue, rfl, rfl⟩
  · rintro ⟨fieldRef, objectCode, valueCode, hField, hObject, hValue, rfl, rfl⟩
    exact ⟨fieldRef, _, ⟨hField, rfl⟩, objectCode, _, ⟨hObject, rfl⟩, valueCode, _, ⟨hValue, rfl⟩,
      rfl, rfl⟩

theorem instr_ret_run {value : Option Operand} {ty : Ty} :
    (site.instr (.ret value ty)).run p = .ok (code, p') ↔
      site.ret value ty = .ok code ∧ p' = p :=
  select_lift_ok

theorem instr_branch_run {condition : Condition} {target : Code.Label} :
    (site.instr (.branch condition target)).run p = .ok (code, p') ↔
      site.branch condition target.text = .ok code ∧ p' = p :=
  select_lift_ok

theorem instr_goto_run {target : Code.Label} :
    (site.instr (.goto target)).run p = .ok (code, p') ↔ code = [.goto target.text] ∧ p' = p :=
  select_pure_ok

theorem instr_label_run {l : Code.Label} :
    (site.instr (.label l)).run p = .ok (code, p') ↔ code = [.label l.text] ∧ p' = p :=
  select_pure_ok

/-- The instructions that are a mere value, other than calls. As statements they are evaluated and
popped. -/
def isMere : Code.Instr → Bool
  | .operand _ | .binary _ _ _ _ | .not _ _ | .getField _ _ _ => true
  | _ => false

theorem instr_mere_run {i : Code.Instr} (hMere : isMere i = true) :
    (site.instr i).run p = .ok (code, p') ↔
      ∃ valueCode, (site.value i).run p = .ok (valueCode, p') ∧ code = valueCode ++ [.pop] := by
  have hInstr : site.instr i = do return (← site.value i) ++ [.pop] := by
    cases i <;> first | rfl | cases hMere
  rw [hInstr]
  simp only [select_bind_ok, select_pure_ok]
  constructor
  · rintro ⟨valueCode, _, hValue, rfl, rfl⟩
    exact ⟨valueCode, hValue, rfl⟩
  · rintro ⟨valueCode, hValue, rfl⟩
    exact ⟨valueCode, _, hValue, rfl, rfl⟩

end Site

theorem codeOf_nil_run {site : Site} {p p' : Progress} {code : List Stack.Instr} :
    (codeOf site []).run p = .ok (code, p') ↔ code = [] ∧ p' = p := by
  rw [codeOf, select_pure_ok]

/-- The code of a body is that of its instructions in turn, each with the progress that those before it
leave. -/
theorem codeOf_cons_run {site : Site} {p p' : Progress} {code : List Stack.Instr}
    {i : Code.Instr} {rest : List Code.Instr} :
    (codeOf site (i :: rest)).run p = .ok (code, p') ↔
      ∃ first p₁ others, (site.instr i).run p = .ok (first, p₁) ∧
        (codeOf site rest).run p₁ = .ok (others, p') ∧ code = first ++ others := by
  simp only [codeOf, select_bind_ok, select_pure_ok]
  constructor
  · rintro ⟨first, p₁, hFirst, others, _, hRest, rfl, rfl⟩
    exact ⟨first, p₁, others, hFirst, hRest, rfl⟩
  · rintro ⟨first, p₁, others, hFirst, hRest, rfl⟩
    exact ⟨first, p₁, hFirst, others, _, hRest, rfl, rfl⟩

/-- A block is there if the method has a frame, its body can be selected and the walk over its code
succeeds. Limits and header come from these three, and comparisons are counted on for the next method. -/
theorem methodBlock_ok {scope : ClassScope} {comparisons after : Nat} {m : Method}
    {block : Stack.Block} :
    methodBlock scope comparisons m = .ok (block, after) ↔
      ∃ frame body progress usage, Frame.ofMethod m = .ok frame ∧
        (codeOf ⟨scope, m, frame⟩ m.body).run ⟨comparisons, []⟩ = .ok (body, progress) ∧
        Stack.usage m.name body = .ok usage ∧
        block = ⟨methodHeader scope m, usage.maxDepth, frame.size, body⟩ ∧
        after = progress.comparisons := by
  simp only [methodBlock, except_bind_ok, except_pure_ok, Prod.exists, Prod.mk.injEq]
  constructor
  · rintro ⟨frame, hFrame, body, progress, hBody, usage, hUsage, rfl, rfl⟩
    exact ⟨frame, body, progress, usage, hFrame, hBody, hUsage, rfl, rfl⟩
  · rintro ⟨frame, body, progress, usage, hFrame, hBody, hUsage, rfl, rfl⟩
    exact ⟨frame, hFrame, body, progress, hBody, usage, hUsage, rfl, rfl⟩

theorem methodBlocks_nil_ok {scope : ClassScope} {comparisons : Nat} {blocks : List Stack.Block} :
    methodBlocks scope comparisons [] = .ok blocks ↔ blocks = [] := by
  rw [methodBlocks, except_pure_ok]

/-- Methods are compiled in their order. The first one that fails decides the error. -/
theorem methodBlocks_cons_ok {scope : ClassScope} {comparisons : Nat} {m : Method}
    {rest : List Method} {blocks : List Stack.Block} :
    methodBlocks scope comparisons (m :: rest) = .ok blocks ↔
      ∃ block after others, methodBlock scope comparisons m = .ok (block, after) ∧
        methodBlocks scope after rest = .ok others ∧ blocks = block :: others := by
  simp only [methodBlocks, except_bind_ok, except_pure_ok, Prod.exists]
  constructor
  · rintro ⟨block, after, hBlock, others, hRest, rfl⟩
    exact ⟨block, after, others, hBlock, hRest, rfl⟩
  · rintro ⟨block, after, others, hBlock, hRest, rfl⟩
    exact ⟨block, after, hBlock, others, hRest, rfl⟩

theorem methodBlocks_length {scope : ClassScope} {comparisons : Nat} {ms : List Method}
    {blocks : List Stack.Block} (h : methodBlocks scope comparisons ms = .ok blocks) :
    blocks.length = ms.length := by
  induction ms generalizing comparisons blocks with
  | nil => rw [methodBlocks_nil_ok.mp h, List.length_nil, List.length_nil]
  | cons first rest ih =>
      obtain ⟨_, _, _, _, hRest, rfl⟩ := methodBlocks_cons_ok.mp h
      rw [List.length_cons, List.length_cons, ih hRest]

/-- The block at a place is that of the method at this place, for some number of comparisons before
it. -/
theorem methodBlocks_getElem? {scope : ClassScope} {comparisons : Nat} {ms : List Method}
    {blocks : List Stack.Block} (h : methodBlocks scope comparisons ms = .ok blocks) {k : Nat} {m : Method}
    (hm : ms[k]? = some m) :
    ∃ block before after, blocks[k]? = some block ∧
      methodBlock scope before m = .ok (block, after) := by
  induction ms generalizing comparisons blocks k with
  | nil => cases hm
  | cons first rest ih =>
      obtain ⟨block, after, others, hBlock, hRest, rfl⟩ := methodBlocks_cons_ok.mp h
      cases k with
      | zero =>
          obtain rfl := Option.some.inj hm
          exact ⟨block, comparisons, after, rfl, hBlock⟩
      | succ k => exact ih hRest hm

namespace Spin

/-- A class whose one method is
`static boolean spin(boolean go) { while (go) go = !go; return go; }`. -/
def program : Source.Program where
  imports := []
  decl := {
    name := "Spin"
    superClass := none
    fields := []
    methods := [{
      name := "spin"
      isPublic := false
      isStatic := true
      returnType := .boolean
      parameters := [.plain "go" .boolean]
      locals := []
      body := [
        .loop (.ident "go" .boolean)
          (.assign (.ident "go" .boolean) (.not (.ident "go" .boolean))),
        .ret (some (.ident "go" .boolean))] }] }

/-- A loop tests before it is entered and again behind its body, so that the condition is there twice. -/
def source : List Code.Instr := [
  .branch (.single (.variable "go" .boolean)) ⟨.whileBody, 0⟩,
  .goto ⟨.endWhile, 0⟩,
  .label ⟨.whileBody, 0⟩,
  .assign (.variable "go" .boolean) .boolean (.not (.variable "go" .boolean) .boolean),
  .branch (.single (.variable "go" .boolean)) ⟨.whileBody, 0⟩,
  .label ⟨.endWhile, 0⟩,
  .ret (some (.variable "go" .boolean)) .boolean]

/-- The method that takes the parameter in slot 0 and changes it in place. -/
def method : Method where
  name := "spin"
  isPublic := false
  isStatic := true
  isVarargs := false
  parameters := [⟨"go", .boolean⟩]
  returnType := .boolean
  body := source

def unit : Code.ClassUnit where
  name := "Spin"
  superClass := none
  imports := []
  fields := []
  methods := [method]
  hasDefaultConstructor := true

def frame : Frame := ⟨(∅ : Std.HashMap String UInt16).insert "go" 0, 1⟩

/-- The stack code of the method. The negation is the deepest point, with the constant above the
variable. -/
def body : List Stack.Instr := [
  .loadShort .int 0, .ifZero .ne "whilebody_0",
  .goto "endwhile_0",
  .label "whilebody_0",
  .loadShort .int 0, .iconst 1, .arithmetic .xor, .storeShort .int 0,
  .loadShort .int 0, .ifZero .ne "whilebody_0",
  .label "endwhile_0",
  .loadShort .int 0, .retValue .int]

/-- Lowering the class gives just this unit. Every other fact about the method begins here, so that none
of them is about code written by hand. -/
theorem lowered : Lowering.ofProgram true program = .ok unit := by
  rfl

theorem framed : Frame.ofMethod method = .ok frame := by
  simp [method, source, frame, Frame.ofMethod, Frame.empty, Frame.add, Method.names,
    Code.Instr.names, Condition.names, Operand.names, List.foldlM, bind, Except.bind, pure,
    Except.pure, UInt16.size]

/-- The code of the method in any class and with any head, since it asks only for the slot of the
parameter. -/
theorem selected (scope : ClassScope) (m : Method) :
    (codeOf ⟨scope, m, frame⟩ source).run .start = .ok (body, .start) := by
  have hGo : Site.slot ⟨scope, m, frame⟩ "go" = .ok 0 := by
    simp [Site.slot_ok, Frame.slot?, frame]
  simp only [source, codeOf, Site.instr, Site.branch, Site.load, kindOf, Site.assign,
    Site.allocated?, Site.value, Site.ret, hGo]
  rfl

theorem usage : Stack.usage "spin" body = .ok ⟨2, 0⟩ := by
  -- The walk is cut at the first label, where it forgets what it has met but for the depth.
  obtain ⟨jumps, hFirst⟩ : ∃ jumps, (body.take 4).foldlM (Stack.Walk.step "spin") .start =
      .ok ⟨0, 1, true, jumps⟩ := by
    simp [body, Stack.Walk.step, Stack.Walk.start, Stack.Walk.after, Stack.Walk.atLabel,
      Stack.Walk.record, Stack.Instr.pops, Stack.Instr.pushes, Stack.Instr.isUnconditional,
      Stack.Instr.target?, bind, Except.bind, pure, Except.pure, Std.HashMap.getD_insertIfNew]
  obtain ⟨jumps', hRest⟩ : ∃ jumps', (body.drop 4).foldlM (Stack.Walk.step "spin")
      ⟨0, 1, true, jumps⟩ = .ok ⟨0, 2, false, jumps'⟩ := ⟨_, rfl⟩
  rw [Stack.usage, ← List.take_append_drop 4 body, List.foldlM_append, hFirst]
  change (List.foldlM _ _ _ >>= _) = _
  rw [hRest]
  rfl

/-- The block of the method. Its code needs two cells where the negation brings in the one, and one
slot for the parameter; no comparison was turned into a value. -/
theorem block (scope : ClassScope) :
    methodBlock scope 0 method = .ok (⟨"static spin(Z)Z", 2, 1, body⟩, 0) :=
  methodBlock_ok.mpr ⟨frame, body, _, _, framed, selected _ method, usage, rfl, rfl⟩

theorem emitted (superName : String) :
    methodBlocks (.ofUnit superName unit) 0 unit.methods = .ok [⟨"static spin(Z)Z", 2, 1, body⟩] :=
  methodBlocks_cons_ok.mpr ⟨_, _, _, block _, rfl, rfl⟩

end Spin

end MiniJava.Assembly
