import MiniJava.Code.Instr
import MiniJava.Proofs.Semantics.Behaviour
import Mathlib.Logic.Function.Basic

/-!
A machine for three-address code. It keeps the instructions that are still to come, as an end of the
whole code, and the values of the variables, of which some may have none yet.
-/

namespace MiniJava.Semantics.Code

open MiniJava.Code

/-- The values of variables, temporaries among them. A temporary has none until it is assigned, and to
read it before is a fault. -/
abbrev Env := String → Option Value

/-- The instructions still to come and the variables. Nothing else is kept between instructions, since
operands are read where they are used. -/
structure State where
  rest : List Instr
  env : Env

/-- The code from a label on, the label included. Of two labels alike the first one counts. -/
def afterLabel? (l : Label) : List Instr → Option (List Instr)
  | [] => none
  | i :: rest => if i = .label l then some (i :: rest) else afterLabel? l rest

section

variable (setting : Setting) (env : Env)

/-- The value of an operand. A variable that has none and the name of a class are no values, and such
code is stuck; whatever is read from an array is checked against the type that the operand carries. -/
def operand : Operand → Act Value
  | .literal n _ => return .int n
  | .variable name _ =>
      match env name with
      | some v => return v
      | none => throw .stuck
  | .element array place ty => do
      match env array with
      | some base => do
          let place ← operand place
          readItem base place (.ofType ty)
      | none => throw .stuck
  | .self _ => return setting.self
  | .classRef _ => throw .stuck

/-- The values of operands from left to right. One that stops leaves those behind it unread. -/
def operands : List Operand → Act (List Value)
  | [] => return []
  | o :: rest => do
      let v ← operand setting env o
      return v :: (← operands rest)

/-- An operator on two integers. Comparisons give a boolean, and only division may stop; sums and
products wrap around. -/
def operate : BinaryOp → Int32 → Int32 → Act Value
  | .add, a, b => return .int (a + b)
  | .sub, a, b => return .int (a - b)
  | .mul, a, b => return .int (a * b)
  | .div, a, b => return .int (← divide a b)
  | .lt, a, b => return .ofBool (a < b)
  | .gt, a, b => return .ofBool (b < a)
  | .le, a, b => return .ofBool (a ≤ b)
  | .ge, a, b => return .ofBool (b ≤ a)
  | .and, a, b => return .int (a &&& b)

/-- The left operand has its value before the right one, and both are words before the operator is looked
at. -/
def binary (op : BinaryOp) (left right : Operand) : Act Value := do
  let a ← operand setting env left
  let b ← operand setting env right
  operate op (← toInt a) (← toInt b)

/-- A condition, by its one operand or by the comparison of two. A word that is not zero counts as
true. -/
def holds : Condition → Act Bool
  | .single o => do truth (← operand setting env o)
  | .compare op left right => do truth (← binary setting env op left right)

/-- A call, by its kind. An allocation gives an array of the size that is its argument, or an
object of the class that is its receiver. -/
def call (kind : CallKind) (receiver : Operand) (method : Option String)
    (arguments : List Operand) (ty : Ty) : Act Value :=
  match kind, receiver, method with
  | .new, receiver, _ =>
      match ty.isArray, arguments, receiver with
      | true, [size], _ => do newIntArray (← operand setting env size)
      | false, _, .classRef className => newObject (setting.className className)
      | _, _, _ => throw .stuck
  | .arrayLength, array, _ => do arrayLength (← operand setting env array)
  | .invokeStatic, .classRef className, some method => do
      let values ← operands setting env arguments
      callStatic setting className method values (Shape.result? ty)
  | .invokeVirtual, receiver, some method => do
      let object ← operand setting env receiver
      let values ← operands setting env arguments
      callVirtual setting object method values (Shape.result? ty)
  | .invokeSpecial, receiver, some method => do
      let object ← operand setting env receiver
      let values ← operands setting env arguments
      callSpecial setting object method values (Shape.result? ty)
  | _, _, _ => throw .stuck

/-- The value of an instruction that yields one. The value of an instruction that yields none is asked
for by faulty code only. -/
def value : Instr → Act Value
  | .operand o => operand setting env o
  | .binary op left right _ => binary setting env op left right
  | .not o _ => do negate (← operand setting env o)
  | .getField object field ty => do
      readField (← operand setting env object) field (.ofType ty)
  | .call kind receiver method arguments ty => call setting env kind receiver method arguments ty
  | _ => throw .stuck

/-- An assignment, with the variables after it. The array and the place of an item are read before
the right-hand side is. -/
def assign (dest : Operand) (rhs : Instr) : Act Env :=
  match dest with
  | .variable name _ => return Function.update env name (some (← value setting env rhs))
  | .element array place ty => do
      match env array with
      | some base => do
          let place ← operand setting env place
          let v ← value setting env rhs
          writeItem base place (.ofType ty) v
          return env
      | none => throw .stuck
  | _ => throw .stuck

end

/-- A jump goes on at the label, if there is one in the body. The variables stay as they are. -/
def jump (body : List Instr) (env : Env) (l : Label) : Act (Next State) :=
  match afterLabel? l body with
  | some rest => return .goOn ⟨rest, env⟩
  | none => throw .stuck

/-- One instruction of `body`. At the end of the body the run stops, since it has met no return; the body
is kept to find labels in it. -/
def step (setting : Setting) (body : List Instr) : State → Act (Next State)
  | ⟨[], _⟩ => throw .fellOff
  | ⟨i :: rest, env⟩ =>
      match i with
      | .assign dest _ rhs => return .goOn ⟨rest, ← assign setting env dest rhs⟩
      | .putField object field ty v => do
          let object ← operand setting env object
          let v ← operand setting env v
          writeField object field (.ofType ty) v
          return .goOn ⟨rest, env⟩
      | .ret none _ => return .finish none
      | .ret (some o) _ => return .finish (some (← operand setting env o))
      | .branch condition target => do
          if ← holds setting env condition then jump body env target
          else return .goOn ⟨rest, env⟩
      | .goto target => jump body env target
      | .label _ => return .goOn ⟨rest, env⟩
      | i => do
          let _ ← value setting env i
          return .goOn ⟨rest, env⟩

/-- The first steps of a method's code, from its beginning and with the given variables. How it goes on
is known for any greater number of steps. -/
def run (setting : Setting) (body : List Instr) (env : Env) (steps : Nat) : Act Outcome :=
  runFor (step setting body) steps ⟨body, env⟩

section

variable (setting : Setting) (env : Env)

theorem grows_operand (o : Operand) : Grows (operand setting env o) := by
  induction o with
  | literal n ty => exact .pure _
  | «variable» name ty =>
      unfold operand
      cases env name with
      | none => exact .throw .stuck
      | some v => exact .pure v
  | element array place ty ih =>
      unfold operand
      cases env array with
      | none => exact .throw .stuck
      | some base => exact ih.bind fun place => grows_readItem base place _
  | self ty => exact .pure _
  | classRef name => exact .throw .stuck

theorem grows_operands (os : List Operand) : Grows (operands setting env os) := by
  induction os with
  | nil => exact .pure _
  | cons o rest ih => exact (grows_operand setting env o).bind fun _ => ih.bind fun _ => .pure _

theorem grows_operate (op : BinaryOp) (a b : Int32) : Grows (operate op a b) := by
  cases op with
  | div => exact (grows_divide a b).bind fun _ => .pure _
  | _ => exact .pure _

theorem grows_binary (op : BinaryOp) (left right : Operand) :
    Grows (binary setting env op left right) :=
  (grows_operand setting env left).bind fun a =>
    (grows_operand setting env right).bind fun b =>
      (grows_toInt a).bind fun _ => (grows_toInt b).bind fun _ => grows_operate op _ _

theorem grows_holds (condition : Condition) : Grows (holds setting env condition) := by
  cases condition with
  | single o => exact (grows_operand setting env o).bind grows_truth
  | compare op left right => exact (grows_binary setting env op left right).bind grows_truth

theorem grows_call (kind : CallKind) (receiver : Operand) (method : Option String)
    (arguments : List Operand) (ty : Ty) :
    Grows (call setting env kind receiver method arguments ty) := by
  unfold call
  split
  · split
    · exact (grows_operand setting env _).bind grows_newIntArray
    · exact grows_newObject _
    · exact .throw .stuck
  · exact (grows_operand setting env _).bind grows_arrayLength
  · exact (grows_operands setting env _).bind fun _ => grows_callStatic setting _ _ _ _
  · exact (grows_operand setting env _).bind fun _ =>
      (grows_operands setting env _).bind fun _ => grows_callVirtual setting _ _ _ _
  · exact (grows_operand setting env _).bind fun _ =>
      (grows_operands setting env _).bind fun _ => grows_callSpecial setting _ _ _ _
  · exact .throw .stuck

theorem grows_value (i : Instr) : Grows (value setting env i) := by
  cases i with
  | operand o => exact grows_operand setting env o
  | binary op left right ty => exact grows_binary setting env op left right
  | not o ty => exact (grows_operand setting env o).bind grows_negate
  | getField object field ty =>
      exact (grows_operand setting env object).bind fun _ => grows_readField _ field _
  | call kind receiver method arguments ty => exact grows_call setting env kind receiver method _ ty
  | _ => exact .throw .stuck

theorem grows_assign (dest : Operand) (rhs : Instr) : Grows (assign setting env dest rhs) := by
  cases dest with
  | «variable» name ty => exact (grows_value setting env rhs).bind fun _ => .pure _
  | element array place ty =>
      unfold assign
      dsimp only
      cases env array with
      | none => exact .throw .stuck
      | some base =>
          exact (grows_operand setting env place).bind fun _ =>
            (grows_value setting env rhs).bind fun _ =>
              (grows_writeItem base _ _ _).bind fun _ => .pure _
  | _ => exact .throw .stuck

theorem grows_jump (body : List Instr) (l : Label) : Grows (jump body env l) := by
  unfold jump
  split
  · exact .pure _
  · exact .throw .stuck

theorem grows_step (body : List Instr) (s : State) : Grows (step setting body s) := by
  obtain ⟨rest, env⟩ := s
  cases rest with
  | nil => exact .throw .fellOff
  | cons i rest =>
      cases i with
      | assign dest ty rhs => exact (grows_assign setting env dest rhs).bind fun _ => .pure _
      | putField object field ty v =>
          exact (grows_operand setting env object).bind fun _ =>
            (grows_operand setting env v).bind fun _ =>
              (grows_writeField _ field _ _).bind fun _ => .pure _
      | ret v ty =>
          cases v with
          | none => exact .pure _
          | some o => exact (grows_operand setting env o).bind fun _ => .pure _
      | branch condition target =>
          refine (grows_holds setting env condition).bind fun b => ?_
          exact .ite (grows_jump env body target) (.pure _)
      | goto target => exact grows_jump env body target
      | label l => exact .pure _
      | operand o => exact (grows_operand setting env o).bind fun _ => .pure _
      | binary op left right ty =>
          exact (grows_binary setting env op left right).bind fun _ => .pure _
      | not o ty => exact (grows_value setting env (.not o ty)).bind fun _ => .pure _
      | getField object field ty =>
          exact (grows_value setting env (.getField object field ty)).bind fun _ => .pure _
      | call kind receiver method arguments ty =>
          exact (grows_call setting env kind receiver method arguments ty).bind fun _ => .pure _

end

end MiniJava.Semantics.Code
