import MiniJava.Assembly.ClassScope
import MiniJava.Assembly.Frame
import MiniJava.Stack.Encoding

/-!
Stack code for the instructions of a method. Every instruction leaves the stack as it found it,
with one exception: a new object stays on the stack beside its variable until the constructor call
on that variable takes it.
-/

namespace MiniJava.Assembly

open Code (CallKind Condition Method Operand Ty)
open Stack (ElementKind Kind)

/-- Where instructions stand: the class, whose names they refer to, the method, and the slots of its
variables. -/
structure Site where
  scope : ClassScope
  method : Method
  frame : Frame
deriving Inhabited

/-- What selection carries from one instruction to the next. -/
structure Progress where
  /-- How many comparisons have been turned into values in the class so far. The number has no bound
  here; a counter of 32 bits agrees with it as long as a class has fewer than 2^32 of them. -/
  comparisons : Nat
  /-- The variables whose new object still waits for its constructor. -/
  pending : List String
deriving DecidableEq, Repr, Inhabited

/-- At the start of a class nothing waits for a constructor and no comparison has been numbered. -/
def Progress.start : Progress := ⟨0, []⟩

/-- Selection carries its progress along and stops at the first instruction for which there is no
code. -/
abbrev Select := StateT Progress (Except CompileError)

/-- The labels of a comparison that is turned into a value. They are numbered through the whole class,
and their texts differ from those of all labels that lowering makes. -/
def newComparisonLabels : Select (String × String) :=
  modifyGet fun progress =>
    let id := toString progress.comparisons
    (("cmp_" ++ id ++ "_true", "cmp_" ++ id ++ "_end"),
      { progress with comparisons := progress.comparisons + 1 })

/-- From now on the object of the variable waits for its constructor. A variable that is allocated anew
waits once. -/
def markPending (name : String) : Select Unit :=
  modify fun progress =>
    { progress with pending := name :: progress.pending.filter (· ≠ name) }

/-- Whether the object of a variable waits for its constructor; it no longer does afterwards. So the copy
on the stack is used once, and a second call on the variable loads it. -/
def takePending (name : String) : Select Bool :=
  modifyGet fun progress =>
    (progress.pending.contains name,
      { progress with pending := progress.pending.filter (· ≠ name) })

/-- Whether a value of the type is kept as an integer or as a reference. There is no value of type void
to be kept. -/
def kindOf : Ty → Except CompileError Kind
  | .int32 | .boolean => .ok .int
  | .string | .object _ | .array _ => .ok .reference
  | .void => .error (.unsupported "variable of type void")

/-- How an array keeps its items. There are no arrays of arrays, and none of void; what is refused here
is shown by its type. -/
def elementKindOf : Ty → Except CompileError ElementKind
  | .int32 => .ok .int
  | .boolean => .ok .byte
  | .string | .object _ => .ok .reference
  | ty => .error (.unsupported ("array element of type " ++ ty.text))

/-- The comparison in a branch that an operator stands for. Operators that give a number are none, and
neither is the conjunction, which code takes as an operation on numbers. -/
def comparisonOf : Code.BinaryOp → Except CompileError Stack.Comparison
  | .lt => .ok .lt
  | .gt => .ok .gt
  | .le => .ok .le
  | .ge => .ok .ge
  | op => .error (.unsupported ("'" ++ op.text ++ "' as a branch comparison"))

namespace Site

/-- The slot of a variable, which it has if the method names it. A frame made from the method itself
therefore has all slots that its code asks for. -/
def slot (site : Site) (name : String) : Except CompileError UInt16 :=
  match site.frame.slot? name with
  | some slot => .ok slot
  | none => .error (.unresolved .variable name ("method '" ++ site.method.name ++ "'"))

/-- Pushes the value of an operand: a constant, the variable in a slot, an item of an array, or the
receiver. A class name has no value. -/
def load (site : Site) : Operand → Except CompileError (List Stack.Instr)
  | .literal value _ => .ok [Stack.pushInt value]
  | .variable name ty => do
      let kind ← kindOf ty
      return [Stack.loadSlot kind (← site.slot name)]
  | .element array place ty => do
      let kind ← elementKindOf ty
      let base := Stack.loadSlot .reference (← site.slot array)
      return base :: (← site.load place) ++ [.arrayLoad kind]
  | .self _ =>
      if site.method.isStatic then
        .error (.unsupported ("'this' in static method '" ++ site.method.name ++ "'"))
      else .ok [Stack.loadSlot .reference 0]
  | .classRef name => .error (.unsupported ("class name '" ++ name ++ "' used as a value"))

/-- Pushes the values of operands from left to right, so that the last argument of a call comes to lie on
top. -/
def loadAll (site : Site) (operands : List Operand) : Except CompileError (List Stack.Instr) := do
  return (← operands.mapM site.load).flatten

/-- Turns a comparison of the two topmost integers into one or zero. Both ways meet at the second label,
each with one value on the stack. -/
def comparisonCode (comparison : Stack.Comparison) (labels : String × String) : List Stack.Instr :=
  [.ifInts comparison labels.1, Stack.pushInt 0, .goto labels.2, .label labels.1,
    Stack.pushInt 1, .label labels.2]

/-- Pushes the value of an operation: both operands, then the instruction of the operator. A comparison
has no such instruction and becomes a branch between one and zero. -/
def binary (site : Site) (op : Code.BinaryOp) (left right : Operand) :
    Select (List Stack.Instr) := do
  let code := (← site.load left) ++ (← site.load right)
  match op with
  | .add => return code ++ [.arithmetic .add]
  | .sub => return code ++ [.arithmetic .sub]
  | .mul => return code ++ [.arithmetic .mul]
  | .div => return code ++ [.arithmetic .div]
  | .and => return code ++ [.arithmetic .and]
  | .lt | .gt | .le | .ge =>
      let comparison ← comparisonOf op
      return code ++ comparisonCode comparison (← newComparisonLabels)

/-- The method name of an invocation, which every call that lowering makes has. A call without one is a
fault and reported as such. -/
def methodName (call : Code.Instr) : Option String → Except CompileError String
  | some name => .ok name
  | none => .error (.internal ("invocation '" ++ call.text ++ "' has no method name"))

/-- The code of an invocation, and whether it pushes a value. The receiver comes first, then the
arguments, as the machine takes them; a static invocation has no receiver code. -/
def invocation (site : Site) (kind : Stack.InvokeKind) (className name : String)
    (receiverCode : List Stack.Instr) (arguments : List Operand) (returnType : Ty) :
    Except CompileError (List Stack.Instr × Bool) := do
  let method := site.scope.methodRef className name arguments returnType
  return (receiverCode ++ (← site.loadAll arguments) ++ [.invoke kind method], method.returnsValue)

/-- The class of a special invocation and the code of its receiver. The receiver is on the stack
already if it is a new object that waits for its constructor; on `this`, the superclass is
meant. -/
def specialReceiver (site : Site) (receiver : Operand) : Select (String × List Stack.Instr) :=
  match receiver with
  | .variable name _ => do
      if ← takePending name then return (← site.scope.classOf receiver, [])
      else return (← site.scope.classOf receiver, ← site.load receiver)
  | .self _ => return (site.scope.superName, ← site.load receiver)
  | _ => return (← site.scope.classOf receiver, ← site.load receiver)

/-- The code of a new array, which has items of type int. Arrays of other items can be received from
elsewhere, but code does not make them. -/
def newArray (site : Site) (call : Code.Instr) (arguments : List Operand) (returnType : Ty) :
    Except CompileError (List Stack.Instr) :=
  if returnType.element? = some .int32 then
    match arguments with
    | [size] => return (← site.load size) ++ [.newIntArray]
    | _ => .error (.internal ("array allocation '" ++ call.text ++ "' needs exactly one size"))
  else .error (.unsupported ("allocation of " ++ returnType.text))

/-- The code of a call, and whether it pushes a value. Each kind of call has its own way to name a class
and its own receiver code; what is no call is refused. -/
def call (site : Site) (instr : Code.Instr) : Select (List Stack.Instr × Bool) :=
  match instr with
  | .call .new receiver _ arguments returnType => do
      if returnType.isArray then return (← site.newArray instr arguments returnType, true)
      else return ([.new (← site.scope.classOf receiver)], true)
  | .call .arrayLength receiver _ _ _ => return ((← site.load receiver) ++ [.arrayLength], true)
  | .call .invokeStatic receiver method arguments returnType => do
      let className ← site.scope.classOf receiver
      let name ← methodName instr method
      site.invocation .static className name [] arguments returnType
  | .call .invokeVirtual receiver method arguments returnType => do
      let className ← site.scope.classOf receiver
      let name ← methodName instr method
      site.invocation .virtual className name (← site.load receiver) arguments returnType
  | .call .invokeSpecial receiver method arguments returnType => do
      let name ← methodName instr method
      let (className, receiverCode) ← site.specialReceiver receiver
      site.invocation .special className name receiverCode arguments returnType
  | _ => throw (.internal ("'" ++ instr.text ++ "' is not a call"))

/-- A call whose value is dropped: if it pushes one, that is popped again. An allocation for its own sake
is such a call too. -/
def callStatement (site : Site) (instr : Code.Instr) : Select (List Stack.Instr) := do
  let (code, pushes) ← site.call instr
  return if pushes then code ++ [.pop] else code

/-- A call whose value is used. A call without a value cannot be, and the report shows it, so that what
is stored or returned is always there. -/
def callValue (site : Site) (instr : Code.Instr) : Select (List Stack.Instr) := do
  let (code, pushes) ← site.call instr
  if pushes then return code
  else throw (.unsupported ("void call '" ++ instr.text ++ "' used as a value"))

/-- Pushes the value of an instruction. Branches, stores and labels have none, and an instruction that is
used for a value it does not have is refused. -/
def value (site : Site) (instr : Code.Instr) : Select (List Stack.Instr) :=
  match instr with
  | .operand o => site.load o
  | .binary op left right _ => site.binary op left right
  | .not o _ => return (← site.load o) ++ [Stack.pushInt 1, .arithmetic .xor]
  | .getField object field ty => do
      let fieldRef ← site.scope.fieldRef object field ty
      return (← site.load object) ++ [.getField fieldRef]
  | .call _ _ _ _ _ => site.callValue instr
  | _ => throw (.unsupported ("'" ++ instr.text ++ "' used as a value"))

/-- The receiver of an instruction that allocates an object. The allocation of an array is none of these,
since no constructor is run for it. -/
def allocated? : Code.Instr → Option Operand
  | .call .new receiver _ _ returnType => if returnType.isArray then none else some receiver
  | _ => none

/-- Stores a value into a variable or into an item of an array. An object that is allocated for a
variable stays on the stack below its copy in the slot, and waits for the constructor call. -/
def assign (site : Site) (dest : Operand) (rhs : Code.Instr) : Select (List Stack.Instr) :=
  match dest with
  | .variable name ty => do
      let slot ← site.slot name
      match allocated? rhs with
      | some receiver =>
          let className ← site.scope.classOf receiver
          markPending name
          return [.new className, .dup, Stack.storeSlot .reference slot]
      | none =>
          let code ← site.value rhs
          return code ++ [Stack.storeSlot (← kindOf ty) slot]
  | .element array place ty => do
      let kind ← elementKindOf ty
      let base := Stack.loadSlot .reference (← site.slot array)
      let placeCode ← site.load place
      return base :: placeCode ++ (← site.value rhs) ++ [.arrayStore kind]
  | _ => throw (.unsupported ("assignment to " ++ dest.text))

/-- Leaves the method, with the value on top of the stack if the method gives one. -/
def ret (site : Site) (value : Option Operand) (ty : Ty) : Except CompileError (List Stack.Instr) :=
  match value with
  | none => return [.ret]
  | some value =>
      if ty.isVoid then
        throw (.unsupported
          ("returning " ++ value.text ++ " from void method '" ++ site.method.name ++ "'"))
      else return (← site.load value) ++ [.retValue (← kindOf ty)]

/-- Jumps if the condition holds: if one operand is not zero, or if two compare as asked. The operands
are gone from the stack either way. -/
def branch (site : Site) (condition : Condition) (target : String) :
    Except CompileError (List Stack.Instr) :=
  match condition with
  | .single operand => return (← site.load operand) ++ [.ifZero .ne target]
  | .compare op left right => do
      let comparison ← comparisonOf op
      return (← site.load left) ++ (← site.load right) ++ [.ifInts comparison target]

/-- The code of an instruction. A value that is not used is popped, so that between two instructions the
stack holds only objects that wait for their constructors. -/
def instr (site : Site) (i : Code.Instr) : Select (List Stack.Instr) :=
  match i with
  | .assign dest _ rhs => site.assign dest rhs
  | .call _ _ _ _ _ => site.callStatement i
  | .putField object field ty value => do
      let fieldRef ← site.scope.fieldRef object field ty
      return (← site.load object) ++ (← site.load value) ++ [.putField fieldRef]
  | .ret value ty => site.ret value ty
  | .branch condition target => site.branch condition target.text
  | .goto target => return [.goto target.text]
  | .label l => return [.label l.text]
  | .operand _ | .binary _ _ _ _ | .not _ _ | .getField _ _ _ =>
      return (← site.value i) ++ [.pop]

end Site

end MiniJava.Assembly
