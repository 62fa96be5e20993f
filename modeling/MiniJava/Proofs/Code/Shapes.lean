import MiniJava.Proofs.Code.Typing
import MiniJava.Proofs.Semantics.Answers
import MiniJava.Proofs.Semantics.Code

/-! Well-typed code yields values of its types. -/

namespace MiniJava.Code

open Semantics (Returns Setting Shape Value)

/-- Types that fit each other have values of one shape, for all objects count as one. -/
theorem Ty.Fits.shape_eq {ty expected : Ty} (h : ty.Fits expected) :
    Shape.ofType ty = Shape.ofType expected := by
  rcases h with rfl | ⟨hTy, hExpected⟩
  · rfl
  · cases ty <;> cases hTy <;> cases expected <;> cases hExpected <;> rfl

/-- All variables that have values have values of their types, and there is an object to call a method
on that is not static. -/
structure Shaped (c : Context) (setting : Setting) (env : Semantics.Code.Env) : Prop where
  self : c.isStatic = false → Shape.reference.holds setting.self = true
  named : ∀ {name ty v}, c.typeOf name = some ty → env name = some v →
    (Shape.ofType ty).holds v = true

namespace Shaped

variable {c : Context} {setting : Setting} {env : Semantics.Code.Env} {v : Value}

/-- Assigning a value of the type of the variable keeps all variables within their types. What the heap
holds is not asked. -/
theorem update (h : Shaped c setting env) {name : String} {ty : Ty} (hName : c.typeOf name = some ty)
    (hv : (Shape.ofType ty).holds v = true) : Shaped c setting (Function.update env name (some v)) where
  self := h.self
  named {other ty' v'} hOther hValue := by
    by_cases hSame : other = name
    · subst hSame
      rw [Function.update_self] at hValue
      obtain rfl := Option.some.inj hValue
      obtain rfl := Option.some.inj (hName.symm.trans hOther)
      exact hv
    · rw [Function.update_of_ne hSame] at hValue
      exact h.named hOther hValue

variable (h : Shaped c setting env)

include h

/-- A typed operand has a value of its type, if it has one. For an item this holds because a read is
checked against the type. -/
theorem operand {o : Operand} (ho : o.Typed c) (hv : Returns (Semantics.Code.operand setting env o) v) :
    (Shape.ofType o.ty).holds v = true := by
  cases ho with
  | int n =>
      rw [hv.of_pure]
      rfl
  | bool b =>
      rw [hv.of_pure]
      cases b <;> rfl
  | @«variable» name ty hName hValue =>
      unfold Semantics.Code.operand at hv
      cases hFound : env name with
      | none =>
          rw [hFound] at hv
          exact (Returns.not_throw hv).elim
      | some found =>
          rw [hFound] at hv
          rw [hv.of_pure]
          exact h.named hName hFound
  | @element array place ty hArray hElementary hPlace hInt =>
      unfold Semantics.Code.operand at hv
      cases hFound : env array with
      | none =>
          rw [hFound] at hv
          exact (Returns.not_throw hv).elim
      | some base =>
          rw [hFound] at hv
          obtain ⟨_, -, hItem⟩ := hv.of_bind
          exact Semantics.returns_readItem hItem
  | self hInstance =>
      rw [hv.of_pure]
      exact h.self hInstance

theorem int {o : Operand} (ho : o.Typed c) (hInt : o.ty = .int32)
    (hv : Returns (Semantics.Code.operand setting env o) v) : ∃ n, v = .int n := by
  have hShape := h.operand ho hv
  rw [hInt] at hShape
  exact Semantics.int_of_holds (.inl rfl) hShape

omit h in
theorem operate {op : BinaryOp} {a b : Int32} (hv : Returns (Semantics.Code.operate op a b) v) :
    (Shape.ofType (if op.isComparison then .boolean else .int32)).holds v = true := by
  cases op
  case div =>
    obtain ⟨_, -, rfl⟩ := hv.of_map
    rfl
  case add | sub | mul | and =>
    rw [hv.of_pure]
    rfl
  case lt | gt | le | ge =>
    rw [hv.of_pure]
    exact Semantics.holds_ofBool _

omit h in
theorem binary {op : BinaryOp} {left right : Operand}
    (hv : Returns (Semantics.Code.binary setting env op left right) v) :
    (Shape.ofType (if op.isComparison then .boolean else .int32)).holds v = true := by
  obtain ⟨_, -, hRight⟩ := hv.of_bind
  obtain ⟨_, -, hInts⟩ := hRight.of_bind
  obtain ⟨_, -, hInt⟩ := hInts.of_bind
  obtain ⟨_, -, hOperate⟩ := hInt.of_bind
  exact operate hOperate

/-- What an instruction yields is of the type that it carries. Values from the heap and from the host are
checked when they come. -/
theorem value {i : Instr} (hi : i.Yields c) (hValue : i.valueType.isVoid = false)
    (hv : Returns (Semantics.Code.value setting env i) v) :
    (Shape.ofType i.valueType).holds v = true := by
  cases hi with
  | operand ho => exact h.operand ho hv
  | arithmetic hOp =>
      have hShape := binary hv
      rwa [hOp] at hShape
  | comparison hOp =>
      have hShape := binary hv
      rwa [hOp] at hShape
  | not ho hBoolean =>
      obtain ⟨_, -, hNegate⟩ := hv.of_bind
      exact Semantics.returns_negate hNegate
  | getField hInstance hField =>
      obtain ⟨_, -, hRead⟩ := hv.of_bind
      exact Semantics.returns_readField hRead
  | newArray hSize hInt =>
      obtain ⟨_, -, hNew⟩ := hv.of_bind
      exact Semantics.returns_newIntArray hNew
  | arrayLength ho hArray =>
      obtain ⟨_, -, hLength⟩ := hv.of_bind
      exact Semantics.returns_arrayLength hLength
  | @callStatic className method arguments ty hPasses =>
      obtain ⟨_, -, hCall⟩ := hv.of_bind
      rw [Shape.result?, if_neg (by exact Bool.eq_false_iff.mp hValue)] at hCall
      exact Semantics.returns_perform hCall
  | @callVirtual target method arguments ty hTarget hObject hPasses =>
      obtain ⟨_, -, hArguments⟩ := hv.of_bind
      obtain ⟨_, -, hCall⟩ := hArguments.of_bind
      rw [Shape.result?, if_neg (by exact Bool.eq_false_iff.mp hValue)] at hCall
      exact Semantics.returns_callVirtual hCall

end Shaped

/-- As many values as operands: none is left out, and none is there twice. -/
theorem length_of_returns {setting : Setting} {env : Semantics.Code.Env} {os : List Operand}
    {vs : List Value} (h : Returns (Semantics.Code.operands setting env os) vs) :
    vs.length = os.length := by
  induction os generalizing vs with
  | nil =>
      rw [h.of_pure]
      rfl
  | cons o rest ih =>
      obtain ⟨v, -, hRest⟩ := h.of_bind
      obtain ⟨others, hOthers, rfl⟩ := hRest.of_map
      rw [List.length_cons, List.length_cons, ih hOthers]

end MiniJava.Code
