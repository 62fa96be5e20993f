import MiniJava.Lowering.Fresh

/-!
Three-address code for expressions. An expression becomes code to run first and one instruction
that yields its value; how the value is used decides whether that instruction may be more than an
operand. Operands, receivers and arguments are evaluated from left to right, and `&&` evaluates
its right operand only when the left one holds.
-/

namespace MiniJava.Lowering

open Code (CallKind Condition Instr Operand)
open Source (Expr)

/-- How the value of an expression is used. The use is handed down to the expression and decides how much
of it may be left to one last instruction that the surrounding code completes. -/
inductive Use where
  /-- As an operand. -/
  | value
  /-- As the right-hand side of an assignment, which may be any one instruction. -/
  | assignRhs
  /-- As a condition, which may be a comparison. -/
  | condition
  /-- Not at all. -/
  | discard
deriving DecidableEq, Repr, Inhabited

/-- An instruction that yields a value, and the code to run before it. The instruction itself is not part
of the code: whoever asked for the value puts it where it belongs. -/
structure Lowered where
  value : Instr
  code : List Instr
deriving DecidableEq, Repr, Inhabited

/-- An operand that is there without any code, such as a literal, a variable or the receiver. -/
def Lowered.ofOperand (o : Operand) : Lowered := ⟨.operand o, []⟩

/-- Whether an instruction is an operand that can stand anywhere. The item of an array is an operand too,
but reading it may fail, so it is kept apart from the others. -/
def isPlain : Instr → Bool
  | .operand o => !o.isElement
  | _ => false

/-- Leaves the instruction as the value if it may stay, and else puts its value into a temporary, so that
the operand which is left does not depend on what runs before it is used. -/
def finish (scope : Scope) (mayStay : Bool) (value : Instr) (code : List Instr) : Lower Lowered :=
  if mayStay || isPlain value then return ⟨value, code⟩
  else do
    let ty := value.valueType
    let temp := .variable (← scope.newTemp) ty
    return ⟨.operand temp, code ++ [.assign temp ty value]⟩

/-- The operand that lowering an expression gives, and its code. Anything else than an operand is a fault
of lowering, which is reported as one. -/
def operandOf (e : Expr) (lowering : Lower Lowered) : Lower (Operand × List Instr) := do
  match ← lowering with
  | ⟨.operand o, code⟩ => return (o, code)
  | ⟨value, _⟩ => throw (.internal (e.kindName ++ " did not lower to an operand: " ++ value.text))

/-- The condition that lowering an expression gives, and its code. A comparison stands in a branch as it
is; any other value must be an operand, which is tested for not being zero. -/
def conditionOf (e : Expr) (lowering : Lower Lowered) : Lower (Condition × List Instr) := do
  match ← lowering with
  | ⟨.operand o, code⟩ => return (.single o, code)
  | ⟨.binary op left right ty, code⟩ =>
      if op.isComparison then return (.compare op left right, code)
      else throw (notCondition (.binary op left right ty))
  | ⟨value, _⟩ => throw (notCondition value)
where
  notCondition (value : Instr) : CompileError :=
    .internal (e.kindName ++ " is not a branch condition: " ++ value.text)

/-- A name: a variable of the method, else a field of the class, else a class. A field is read into a
temporary at once, so that a later assignment to it does not change the value. -/
def identifier (scope : Scope) (name : String) : Lower Lowered :=
  match scope.method.lookup? name with
  | some declared => return .ofOperand (.variable name (.ofSource declared.ty))
  | none =>
      match scope.symbols.visibleField? scope.method.name name with
      | some field => finish scope false (.getField scope.self name (.ofSource field.ty)) []
      | none =>
          if scope.symbols.isClassReference name then return .ofOperand (.classRef name)
          else throw (scope.unresolvedVariable name)

/-- An item of the array that `base` holds. Items are named by the variable of the array, so a base that
is no variable is refused, and the report shows it. -/
def elementOf (base place : Operand) (ty : Code.Ty) : Lower Operand :=
  match base.variableName? with
  | some array => return .element array place ty
  | none => throw (.unsupported ("indexing a non-variable operand " ++ base.text))

/-- The call that makes a new array of integers. The source has no other arrays, so the kind of the items
is fixed and only their number is given. -/
def newIntArray (size : Operand) : Instr := .call .new (.classRef "array") none [size] .intArray

/-- Code that makes `array` a new array of as many items as there are values, and stores the values one
after the other. Places are 32-bit integers, so there cannot be too many of them. -/
def fillArray (array : String) (values : List Operand) : Lower (List Instr) :=
  if values.length < Nat.pow 2 31 then
    return .assign (.variable array .intArray) .intArray
        (newIntArray (.int (.ofNat values.length))) ::
      values.mapIdx fun place value =>
        .assign (.element array (.int (.ofNat place)) .int32) .int32 (.operand value)
  else throw (.internal "array literal too long")

/-- Code that makes `object` a new object: an allocation and then a constructor call, with nothing
between them. -/
def newObjectCode (object className : String) : List Instr :=
  let ty := Code.Ty.object className
  [.assign (.variable object ty) ty (.call .new (.classRef className) none [] ty),
    .call .invokeSpecial (.variable object ty) (some "<init>") [] .void]

/-- The operation on operands that stands for an operator of the source. The two sets of operators agree
one by one, although the conjunction never reaches code in this way. -/
def operation : Source.BinaryOp → Code.BinaryOp
  | .add => .add
  | .sub => .sub
  | .mul => .mul
  | .div => .div
  | .less => .lt
  | .greater => .gt
  | .lessEqual => .le
  | .greaterEqual => .ge
  | .and => .and

/-- Whether an operation may stay unfinished in a use. An assignment can end in any operation, a branch
only in a comparison, and an operand is never an operation. -/
def operationMayStay (op : Code.BinaryOp) : Use → Bool
  | .assignRhs => true
  | .condition => op.isComparison
  | .value | .discard => false

/-- The code of `&&` into `result`, from the condition that the left operand gives and the code and
operand of the right one. The right part stands behind a label that is reached only if the condition
holds; else the result is false. -/
def shortCircuit (labels : Code.Label × Code.Label) (result : Operand) (condition : Condition)
    (right : Operand × List Instr) : List Instr :=
  [.branch condition labels.1, .assign result .boolean (.operand (.bool false)), .goto labels.2,
    .label labels.1] ++ right.2 ++
    [.assign result .boolean (.operand right.1), .label labels.2]

/-- The class that a receiver names, if it is a name and means nothing else. A variable of the method or
a field of that name hides the class. -/
def Scope.staticTarget? (scope : Scope) (receiver : Expr) : Option String :=
  match receiver.bare with
  | .ident name _ =>
      if (scope.method.lookup? name).isNone && (scope.symbols.field? name).isNone &&
          scope.symbols.isClassReference name
      then some name
      else none
  | _ => none

/-- The kind and the target of a call, and the code of its receiver. The receiver is lowered only where
it is an object; a class is named in the call itself and takes no code. -/
def callTarget (scope : Scope) (receiver : Expr) (object : Lower (Operand × List Instr)) :
    Lower (CallKind × Operand × List Instr) :=
  match scope.staticTarget? receiver with
  | some className => return (.invokeStatic, .classRef className, [])
  | none => do
      let (target, code) ← object
      return (.invokeVirtual, target, code)

/-- Whether a call goes to the class that is being lowered. For an object the type written on the
receiver decides, since its class at run time is not known. -/
def Scope.targetsSelf (scope : Scope) (target : Operand) (receiverTy : Source.Ty) : Bool :=
  match target with
  | .classRef name => name = scope.symbols.className
  | _ => !receiverTy.isArray && receiverTy.name = scope.symbols.className

/-- The number of arguments before those that a call collects in an array, if it collects any. Only
methods of the class at hand are known to collect arguments; what an imported class declares is not. -/
def Scope.fixedArity? (scope : Scope) (target : Operand) (receiverTy : Source.Ty)
    (method : String) : Option Nat :=
  if scope.targetsSelf target receiverTy then
    ((scope.symbols.method? method).filter (·.isVarargs)).map (·.parameters.length - 1)
  else none

/-- Whether the arguments to collect are one array, which is passed on as it is. Only the type written on
the argument decides. -/
def isOneArray : List Expr → Bool
  | [e] => e.ty.isArray
  | _ => false

/-- The operands that a call passes on, and the code that collects the trailing ones. The array is made
after all arguments are evaluated, so that their effects come before it. -/
def collect (scope : Scope) (fixedArity : Option Nat) (arguments : List Expr)
    (operands : List Operand) : Lower (List Operand × List Instr) :=
  match fixedArity with
  | none => return (operands, [])
  | some arity =>
      if isOneArray (arguments.drop arity) then return (operands, [])
      else do
        let array ← scope.newTemp
        let code ← fillArray array (operands.drop arity)
        return (operands.take arity ++ [.variable array .intArray], code)

/-- Whether a call asks for the length of an array. The length looks like a method without arguments;
only on an array does it mean this, and a class may declare a method of that name. -/
def asksLength (receiver : Expr) (method : String) (arguments : List Expr) : Bool :=
  method = "length" && arguments.isEmpty && receiver.ty.isArray

/-- The value of a call in a use. Where the value is wanted as an operand it goes into a temporary, and a
call of a method without a value is refused there. -/
def finishCall (scope : Scope) (use : Use) (method : String) (call : Instr) (code : List Instr) :
    Lower Lowered :=
  match use with
  | .assignRhs | .discard => return ⟨call, code⟩
  | .value | .condition =>
      if call.valueType.isVoid then
        throw (.unsupported ("void call to '" ++ method ++ "' used as a value"))
      else finish scope false call code

mutual

/-- The code of an expression for a use. Parts are lowered from left to right, and each part that is to
be an operand is finished before the next one is looked at. -/
def expr (scope : Scope) : Expr → Use → Lower Lowered
  | .intLiteral value, _ => return .ofOperand (.int value)
  | .boolLiteral value, _ => return .ofOperand (.bool value)
  | .ident name _, _ => identifier scope name
  | .self _, _ => return .ofOperand scope.self
  | .paren inner, use => expr scope inner use
  | .index base place ty, use => do
      let (array, baseCode) ← operandOf base (expr scope base .value)
      let (place, placeCode) ← operandOf place (expr scope place .value)
      let element ← elementOf array place (.ofSource ty)
      finish scope (use = .assignRhs) (.operand element) (baseCode ++ placeCode)
  | .newArray size, use => do
      let (size, code) ← operandOf size (expr scope size .value)
      finish scope (use = .assignRhs) (newIntArray size) code
  | .arrayLiteral elements, _ => do
      let (values, code) ← operands scope elements
      let array ← scope.newTemp
      return ⟨.operand (.variable array .intArray), code ++ (← fillArray array values)⟩
  | .newObject className, _ => do
      let object ← scope.newTemp
      return ⟨.operand (.variable object (.object className)), newObjectCode object className⟩
  | .not operand, use => do
      let (value, code) ← operandOf operand (expr scope operand .value)
      finish scope (use = .assignRhs) (.not value .boolean) code
  | .binary .and left right _, _ => do
      let (condition, leftCode) ← conditionOf left (expr scope left .condition)
      let labels ← newIfLabels
      let result := .variable (← scope.newTemp) .boolean
      let right ← operandOf right (expr scope right .value)
      return ⟨.operand result, leftCode ++ shortCircuit labels result condition right⟩
  | .binary op left right ty, use => do
      let (left, leftCode) ← operandOf left (expr scope left .value)
      let (right, rightCode) ← operandOf right (expr scope right .value)
      finish scope (operationMayStay (operation op) use)
        (.binary (operation op) left right (.ofSource ty)) (leftCode ++ rightCode)
  | .call receiver method arguments ty, use => do
      let object := operandOf receiver (expr scope receiver .value)
      if asksLength receiver method arguments then
        let (array, code) ← object
        finish scope (use = .assignRhs) (.call .arrayLength array none [] .int32) code
      else
        let (kind, target, code) ← callTarget scope receiver object
        let (values, argumentCode) ← operands scope arguments
        let arity := scope.fixedArity? target receiver.ty method
        let (values, collectCode) ← collect scope arity arguments values
        finishCall scope use method (.call kind target (some method) values (.ofSource ty))
          (code ++ argumentCode ++ collectCode)
termination_by structural e => e

/-- The operands that expressions give from left to right, and their code. The code of an expression
stands before that of the next, so effects keep the written order. -/
def operands (scope : Scope) : List Expr → Lower (List Operand × List Instr)
  | [] => return ([], [])
  | e :: rest => do
      let (value, code) ← operandOf e (expr scope e .value)
      let (values, restCode) ← operands scope rest
      return (value :: values, code ++ restCode)
termination_by structural es => es

end

/-- The operand that an expression gives, and its code. This is the use to which most parts of
expressions and statements are put. -/
def operand (scope : Scope) (e : Expr) : Lower (Operand × List Instr) :=
  operandOf e (expr scope e .value)

/-- The condition that an expression gives, and its code. Tests of conditionals and loops are lowered in
this way, and so is the left operand of a conjunction. -/
def condition (scope : Scope) (e : Expr) : Lower (Condition × List Instr) :=
  conditionOf e (expr scope e .condition)

end MiniJava.Lowering
