import MiniJava.Proofs.Lowering.Values
import Mathlib.Data.List.Forall2

/-! Well-typed three-address code: every operand carries the type of its variable, and is of the type
that its place needs. Class types are not told apart. -/

namespace MiniJava.Code

namespace Ty

/-- A class type. Strings are objects as well, although their type is known by itself. -/
def isObject : Ty → Bool
  | .string | .object _ => true
  | _ => false

/-- A type that an array may have as that of its items. An array of arrays is not declared in any
program. -/
def isElementary : Ty → Bool
  | .int32 | .boolean | .string | .object _ => true
  | .void | .array _ => false

/-- Whether a value of the type may stand where `expected` is asked for. Classes are not told apart,
since nothing is known of how they extend each other. -/
def Fits (ty expected : Ty) : Prop :=
  ty = expected ∨ (ty.isObject = true ∧ expected.isObject = true)

theorem Fits.refl (ty : Ty) : ty.Fits ty := .inl rfl

/-- Nothing void fits where a value is asked for, and no value fits where nothing is. -/
theorem Fits.isVoid {ty expected : Ty} (h : ty.Fits expected) : expected.isVoid = ty.isVoid := by
  rcases h with rfl | ⟨hTy, hExpected⟩
  · rfl
  · cases ty <;> cases hTy <;> cases expected <;> cases hExpected <;> rfl

end Ty

/-- What the code of a method is typed against: the types of its variables, its own class and the
parameters of the methods there. -/
structure Context where
  typeOf : String → Option Ty
  isStatic : Bool
  className : String
  returnType : Ty
  parameters? : String → Option (List Ty)

variable (c : Context)

/-- An operand that has a value, of the type that it carries. A class has none, and neither does a
variable of type void. -/
inductive Operand.Typed : Operand → Prop
  | int (n : Int32) : Typed (.literal n .int32)
  | bool (b : Bool) : Typed (.bool b)
  | variable {name : String} {ty : Ty} (hName : c.typeOf name = some ty)
      (hValue : ty.isVoid = false) : Typed (.variable name ty)
  | element {array : String} {place : Operand} {ty : Ty}
      (hArray : c.typeOf array = some (.array ty)) (hElementary : ty.isElementary = true)
      (hPlace : Typed place) (hInt : place.ty = .int32) : Typed (.element array place ty)
  | self (hInstance : c.isStatic = false) : Typed (.self (.object c.className))

/-- Arguments that have values. Those for a method of the class itself fit its parameters; nothing is
known of the parameters of others. -/
structure Context.Passes (target : Operand) (method : String) (arguments : List Operand) : Prop where
  typed : ∀ o ∈ arguments, o.Typed c
  fits : target.ty = .object c.className → ∀ types, c.parameters? method = some types →
    arguments.length = types.length → List.Forall₂ (fun o ty => o.ty.Fits ty) arguments types

/-- An instruction that yields a value of the type that it carries, or a call of void type. Whether void
is allowed is for the use to say. -/
inductive Instr.Yields : Instr → Prop
  | operand {o : Operand} (h : o.Typed c) : Yields (.operand o)
  | arithmetic {op : BinaryOp} {left right : Operand} (hOp : op.isComparison = false)
      (hLeft : left.Typed c) (hRight : right.Typed c) (hLeftInt : left.ty = .int32)
      (hRightInt : right.ty = .int32) : Yields (.binary op left right .int32)
  | comparison {op : BinaryOp} {left right : Operand} (hOp : op.isComparison = true)
      (hLeft : left.Typed c) (hRight : right.Typed c) (hLeftInt : left.ty = .int32)
      (hRightInt : right.ty = .int32) : Yields (.binary op left right .boolean)
  | not {o : Operand} (h : o.Typed c) (hBoolean : o.ty = .boolean) : Yields (.not o .boolean)
  | getField {field : String} {ty : Ty} (hInstance : c.isStatic = false)
      (hValue : ty.isVoid = false) : Yields (.getField (.self (.object c.className)) field ty)
  | newArray {receiver size : Operand} (h : size.Typed c) (hInt : size.ty = .int32) :
      Yields (.call .new receiver none [size] .intArray)
  | arrayLength {o : Operand} {element : Ty} (h : o.Typed c) (hArray : o.ty = .array element) :
      Yields (.call .arrayLength o none [] .int32)
  | callStatic {className method : String} {arguments : List Operand} {ty : Ty}
      (hPasses : c.Passes (.classRef className) method arguments) :
      Yields (.call .invokeStatic (.classRef className) (some method) arguments ty)
  | callVirtual {target : Operand} {method : String} {arguments : List Operand} {ty : Ty}
      (hTarget : target.Typed c) (hObject : target.ty.isObject = true)
      (hPasses : c.Passes target method arguments) :
      Yields (.call .invokeVirtual target (some method) arguments ty)

/-- What a branch tests: a truth value, or two integers that are compared. -/
inductive Condition.Typed : Condition → Prop
  | single {o : Operand} (h : o.Typed c) (hBoolean : o.ty = .boolean) : Typed (.single o)
  | compare {op : BinaryOp} {left right : Operand} (hOp : op.isComparison = true)
      (hLeft : left.Typed c) (hRight : right.Typed c) (hLeftInt : left.ty = .int32)
      (hRightInt : right.ty = .int32) : Typed (.compare op left right)

/-- An instruction of a method body. What it stores fits where it is stored, and what it returns fits the
result of the method. -/
inductive Instr.Typed : Instr → Prop
  | assign {name : String} {ty : Ty} {rhs : Instr} (hName : c.typeOf name = some ty)
      (hRhs : rhs.Yields c) (hValue : rhs.valueType.isVoid = false)
      (hFits : rhs.valueType.Fits ty) : Typed (.assign (.variable name ty) ty rhs)
  | store {array : String} {place : Operand} {ty : Ty} {rhs : Instr}
      (hArray : c.typeOf array = some (.array ty)) (hElementary : ty.isElementary = true)
      (hPlace : place.Typed c) (hInt : place.ty = .int32) (hRhs : rhs.Yields c)
      (hFits : rhs.valueType.Fits ty) : Typed (.assign (.element array place ty) ty rhs)
  | allocation {name className : String} (hName : c.typeOf name = some (.object className)) :
      Typed (Lowering.allocation name className)
  | construction {name className : String} (hName : c.typeOf name = some (.object className)) :
      Typed (Lowering.construction name className)
  | putField {field : String} {ty : Ty} {o : Operand} (hInstance : c.isStatic = false)
      (h : o.Typed c) (hFits : o.ty.Fits ty) :
      Typed (.putField (.self (.object c.className)) field ty o)
  | retNone (hVoid : c.returnType.isVoid = true) : Typed (.ret none c.returnType)
  | ret {o : Operand} (h : o.Typed c) (hFits : o.ty.Fits c.returnType) :
      Typed (.ret (some o) c.returnType)
  | branch {condition : Condition} {target : Label} (h : condition.Typed c) :
      Typed (.branch condition target)
  | goto (target : Label) : Typed (.goto target)
  | label (l : Label) : Typed (.label l)
  | eval {i : Instr} (h : i.Yields c) : Typed i

variable {c}

theorem Operand.Typed.isVoid {o : Operand} (h : o.Typed c) : o.ty.isVoid = false := by
  cases h with
  | «variable» hName hValue => exact hValue
  | @element array place ty hArray hElementary hPlace hInt => cases ty <;> first | rfl | cases hElementary
  | _ => rfl

/-- A new object goes to a variable of its class, for the constructor call behind it is typed with the
same variable. -/
theorem Instr.Typed.typeOf_allocation {name className : String}
    (h : (Lowering.allocation name className).Typed c) : c.typeOf name = some (.object className) := by
  cases h with
  | assign hName => exact hName
  | allocation hName => exact hName
  | eval hYields => cases hYields

/-- An operand of array type is a variable, since no array has arrays for items. -/
theorem Operand.Typed.variable_of_array {o : Operand} {element : Ty} (h : o.Typed c)
    (hArray : o.ty = .array element) :
    ∃ name, o = .variable name (.array element) ∧ c.typeOf name = some (.array element) := by
  cases h with
  | @«variable» name ty hName hValue =>
      obtain rfl := hArray
      exact ⟨name, rfl, hName⟩
  | @element array place ty _ hElementary =>
      obtain rfl : ty = .array element := hArray
      cases hElementary
  | _ => cases hArray

end MiniJava.Code
