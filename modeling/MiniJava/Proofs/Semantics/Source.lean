import MiniJava.Proofs.Semantics.Behaviour
import MiniJava.Proofs.Source.Names
import Mathlib.Logic.Function.Basic

/-!
What programs mean. Operands, receivers and arguments are evaluated from left to right; a loop that
has not ended after some number of rounds leaves the statement unfinished. Names are looked up and
trailing arguments are told from the declarations alone.
-/

namespace MiniJava.Semantics.Source

open MiniJava.Source
open MiniJava.Lowering (Scope asksLength isOneArray)

/-- The values of the parameters and local variables. All of them have one from the start, as the method
declares them all in front. -/
abbrev Env := String → Value

/-- The shape of the values of a declared type. It is that of the type of code which the declared type
becomes. -/
def shapeOf (ty : Ty) : Shape := .ofType (.ofSource ty)

/-- The shape of what a method of a declared type gives back, if it gives anything back. Void methods
give nothing. -/
def resultOf (ty : Ty) : Option Shape := Shape.result? (.ofSource ty)

/-- An operator on two integers that have their values. Conjunctions are evaluated by `eval` itself,
which may skip the right operand, and do not come here. -/
def operate : BinaryOp → Int32 → Int32 → Act Value
  | .add, a, b => return .int (a + b)
  | .sub, a, b => return .int (a - b)
  | .mul, a, b => return .int (a * b)
  | .div, a, b => return .int (← divide a b)
  | .less, a, b => return .ofBool (a < b)
  | .greater, a, b => return .ofBool (b < a)
  | .lessEqual, a, b => return .ofBool (a ≤ b)
  | .greaterEqual, a, b => return .ofBool (b ≤ a)
  | .and, a, b => return .int (a &&& b)

/-- Writes values to an array, one after the other from the given place on. Each of them is an event of
its own. -/
def writeItems (array : Value) (first : Nat) : List Value → Act Unit
  | [] => return ()
  | v :: rest => do
      writeItem array (.int (.ofNat first)) .int v
      writeItems array (first + 1) rest

/-- A fresh array of integers with the given items. The items have their values before the array is
there. -/
def arrayOf (values : List Value) : Act Value := do
  let array ← newArray .int (.ofNat values.length)
  writeItems array 0 values
  return array

/-- A new object, whose constructor is called. The constructor is known to the host alone, and its result
is not looked at. -/
def construct (setting : Setting) (className : String) : Act Value := do
  let object ← newObject (setting.className className)
  let _ ← callSpecial setting object "<init>" [] none
  return object

/-- The arguments that a call passes on: trailing ones are collected in a fresh array, unless they
are one array already. -/
def passed (leading : Option Nat) (arguments : List Expr) (values : List Value) :
    Act (List Value) :=
  match leading with
  | none => return values
  | some n =>
      if isOneArray (arguments.drop n) then return values
      else return values.take n ++ [← arrayOf (values.drop n)]

variable (setting : Setting) (scope : Scope) (env : Env)

/-- The value of a name: a variable has it at hand, a field is read from the receiver. The name of a
class and one that means nothing have none. -/
def readName (name : String) : Act Value :=
  match meaning scope name with
  | .variable _ => return env name
  | .field ty => readField setting.self name (shapeOf ty)
  | .className | .nothing => throw .stuck

mutual

/-- The value of an expression. Operands are evaluated from left to right, an array before its place and
a receiver before the arguments; the right operand of `&&` is evaluated only if the left one is true. -/
def eval : Expr → Act Value
  | .intLiteral n => return .int n
  | .boolLiteral b => return .ofBool b
  | .ident name _ => readName setting scope env name
  | .self _ => return setting.self
  | .paren inner => eval inner
  | .index base place ty => do
      let array ← eval base
      let place ← eval place
      readItem array place (shapeOf ty)
  | .newArray size => do newIntArray (← eval size)
  | .arrayLiteral elements => do arrayOf (← evalAll elements)
  | .newObject className => construct setting className
  | .not operand => do negate (← eval operand)
  | .binary .and left right _ => do
      if ← truth (← eval left) then eval right else return .ofBool false
  | .binary op left right _ => do
      let a ← eval left
      let b ← eval right
      operate op (← toInt a) (← toInt b)
  | .call receiver method arguments ty =>
      if asksLength receiver method arguments then do arrayLength (← eval receiver)
      else
        let leading := leadingArguments? scope receiver method
        match receiverClass? scope receiver with
        | some className => do
            let values ← evalAll arguments
            let values ← passed leading arguments values
            callStatic setting className method values (resultOf ty)
        | none => do
            let object ← eval receiver
            let values ← evalAll arguments
            let values ← passed leading arguments values
            callVirtual setting object method values (resultOf ty)
termination_by structural e => e

/-- The values of expressions from left to right. An expression that stops leaves those behind it
unevaluated. -/
def evalAll : List Expr → Act (List Value)
  | [] => return []
  | e :: rest => do
      let v ← eval e
      return v :: (← evalAll rest)
termination_by structural es => es

end

/-- Whether a condition is true. Conditions are boolean in well-typed programs; any word but zero counts
here. -/
def holds (e : Expr) : Act Bool := do truth (← eval setting scope env e)

/-- How a statement ends: it goes on to the next one with some values of the variables, or the method
returns, or the rounds given to a loop were not enough. -/
inductive Completion where
  | normal (env : Env)
  | returned (value : Option Value)
  /-- Some loop took all the rounds it was given. -/
  | unfinished

/-- An assignment, with the variables after it. For an item, the array and the place are evaluated before
the value. A class cannot be assigned to. -/
def assign (target value : Expr) : Act Env :=
  match target.bare with
  | .ident name _ =>
      match meaning scope name with
      | .variable _ => return Function.update env name (← eval setting scope env value)
      | .field ty => do
          writeField setting.self name (shapeOf ty) (← eval setting scope env value)
          return env
      | .className | .nothing => throw .stuck
  | .index base place ty => do
      let array ← eval setting scope env base
      let place ← eval setting scope env place
      let v ← eval setting scope env value
      writeItem array place (shapeOf ty) v
      return env
  | _ => throw .stuck

/-- Runs `body` as long as `test` holds, for no more than a number of rounds. After them it is not known
how the loop goes on, which is an answer of its own. -/
def repeatWhile (test : Env → Act Bool) (body : Env → Act Completion) : Nat → Env → Act Completion
  | 0, _ => return .unfinished
  | rounds + 1, env => do
      if ← test env then
        match ← body env with
        | .normal env => repeatWhile test body rounds env
        | completion => return completion
      else return .normal env

mutual

/-- A statement, whose loops take no more than `rounds` rounds each time. The bound makes the recursion
end; behaviour is what is seen for all bounds together. -/
def exec (rounds : Nat) : Stmt → Env → Act Completion
  | .block statements, env => execAll rounds statements env
  | .cond test thenBranch elseBranch, env => do
      if ← holds setting scope env test then exec rounds thenBranch env
      else execOptional rounds elseBranch env
  | .loop test body, env =>
      repeatWhile (fun env => holds setting scope env test) (exec rounds body) rounds env
  | .assign target value, env => return .normal (← assign setting scope env target value)
  | .ret none, _ => return .returned none
  | .ret (some e), env => return .returned (some (← eval setting scope env e))
  | .eval e, env => do
      let _ ← eval setting scope env e
      return .normal env
termination_by structural s => s

/-- A branch that may be missing, and then does nothing. The variables stay as they are in that case. -/
def execOptional (rounds : Nat) : Option Stmt → Env → Act Completion
  | none, env => return .normal env
  | some s, env => exec rounds s env
termination_by structural o => o

/-- Statements one after another, up to the first that does not go on to the next. What a return gives
back is handed on unchanged. -/
def execAll (rounds : Nat) : List Stmt → Env → Act Completion
  | [], env => return .normal env
  | s :: rest, env => do
      match ← exec rounds s env with
      | .normal env => execAll rounds rest env
      | completion => return completion
termination_by structural ss => ss

end

/-- How a method ends when its body is done: the end of the body returns from a void method, and is a
fault in any other. -/
def outcome (returnType : Ty) : Completion → Act Outcome
  | .normal _ => if returnType = .void then return .returned none else throw .fellOff
  | .returned v => return .returned v
  | .unfinished => return .running

/-- A run of a method, whose loops take no more than `rounds` rounds each time. It is finished, or not
known to be finished within that bound. -/
def run (method : MethodDecl) (env : Env) (rounds : Nat) : Act Outcome := do
  outcome method.returnType (← execAll setting scope rounds method.body env)

end MiniJava.Semantics.Source
