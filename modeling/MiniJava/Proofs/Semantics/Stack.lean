import MiniJava.Proofs.Semantics.Behaviour
import MiniJava.Proofs.Stack.Labels
import Mathlib.Logic.Function.Basic

/-!
A machine for stack code. It keeps the instructions that are still to come, as an end of the whole
code, the operands on the stack, and the values in the slots, of which some may hold none yet. Whatever
moves between a slot and the stack is checked to be of the kind that the instruction names.
-/

namespace MiniJava.Semantics

namespace Shape

/-- The shape of the values of a kind. A boolean moves as the integer that it is, so slots and the stack
know two shapes only. -/
def ofKind : Stack.Kind → Shape
  | .int => .int
  | .reference => .reference

/-- The shape of the items of an array. Here booleans are apart, since an array of them keeps nothing but
zero and one. -/
def ofElement : Stack.ElementKind → Shape
  | .int => .int
  | .byte => .boolean
  | .reference => .reference

/-- The shape of the values that a descriptor describes. Whatever is neither an integer nor a boolean is
a reference. -/
def ofDescriptor (descriptor : String) : Shape :=
  if descriptor = "I" then .int else if descriptor = "Z" then .boolean else .reference

end Shape

end MiniJava.Semantics

namespace MiniJava.Semantics.Stack

open MiniJava.Stack

/-- The operands, the topmost first, and the slots. A slot may hold nothing, and loading from it is a
fault. -/
structure Store where
  stack : List Value
  slots : Nat → Option Value

/-- The instructions still to come and the store. A jump replaces the former and leaves the latter. -/
structure State where
  rest : List Instr
  store : Store

/-- The code from a label on, the label included. Of two labels alike the first one counts, as in
three-address code. -/
def afterLabel? (name : String) : List Instr → Option (List Instr)
  | [] => none
  | i :: rest => if i = .label name then some (i :: rest) else afterLabel? name rest

/-- What the instructions for operators compute. Logic is bit by bit, which on booleans is the logic of
truth values. -/
def operate : Arithmetic → Int32 → Int32 → Act Int32
  | .add, a, b => return a + b
  | .sub, a, b => return a - b
  | .mul, a, b => return a * b
  | .div, a, b => divide a b
  | .and, a, b => return a &&& b
  | .xor, a, b => return a ^^^ b

/-- Whether a comparison holds of two integers; a test against zero compares with zero. The integers are
signed. -/
def compare : Comparison → Int32 → Int32 → Bool
  | .ne, a, b => a ≠ b
  | .lt, a, b => a < b
  | .ge, a, b => b ≤ a
  | .gt, a, b => b < a
  | .le, a, b => a ≤ b

/-- A value is pushed from its slot, if there is one of the kind of the instruction. The slot keeps its
value. -/
def load (kind : Kind) (slot : Nat) (store : Store) : Act Store :=
  match store.slots slot with
  | some v => return { store with stack := (← checked (.ofKind kind) v) :: store.stack }
  | none => throw .stuck

/-- The topmost operand is moved to a slot, if it is of the kind of the instruction. What the slot held
before is gone. -/
def keep (kind : Kind) (slot : Nat) : Store → Act Store
  | ⟨v :: stack, slots⟩ =>
      return ⟨stack, Function.update slots slot (some (← checked (.ofKind kind) v))⟩
  | _ => throw .stuck

/-- The topmost operands as the arguments of a call, whose last is on top, and what is below them. Too
few operands are a fault. -/
def arguments (count : Nat) (stack : List Value) : Act (List Value × List Value) :=
  if count ≤ stack.length then return ((stack.take count).reverse, stack.drop count)
  else throw .stuck

/-- What the invocation of a method gives back, if it gives anything back. The descriptor alone decides,
as the machine knows no types. -/
def result? (method : MethodRef) : Option Shape :=
  if method.returnsValue then some (.ofDescriptor method.result) else none

/-- A call, with the operands that are left. A static call has no receiver; for the others it lies below
the arguments. -/
def call (setting : Setting) (kind : InvokeKind) (method : MethodRef) (stack : List Value) :
    Act (Value × List Value) := do
  let (values, stack) ← arguments method.parameters.length stack
  match kind, stack with
  | .static, stack =>
      return (← perform setting ⟨.static method.className, method.name, values, result? method⟩, stack)
  | .virtual, receiver :: stack =>
      return (← callVirtual setting receiver method.name values (result? method), stack)
  | .special, receiver :: stack =>
      return (← callSpecial setting receiver method.name values (result? method), stack)
  | _, _ => throw .stuck

/-- A call whose result is pushed if the descriptor of the method has one. The slots are those of the
caller and stay. -/
def invoke (setting : Setting) (kind : InvokeKind) (method : MethodRef) : Store → Act Store
  | ⟨stack, slots⟩ => do
      let (v, stack) ← call setting kind method stack
      return ⟨if method.returnsValue then v :: stack else stack, slots⟩

/-- An instruction after which control goes on to the next. It finds its operands on the stack, or the
run stops. -/
def act (setting : Setting) : Instr → Store → Act Store
  | .iconstM1, ⟨stack, slots⟩ => return ⟨.int (-1) :: stack, slots⟩
  | .iconst n, ⟨stack, slots⟩ => return ⟨.int (.ofNat n.toNat) :: stack, slots⟩
  | .bipush n, ⟨stack, slots⟩ => return ⟨.int n.toInt32 :: stack, slots⟩
  | .sipush n, ⟨stack, slots⟩ => return ⟨.int n.toInt32 :: stack, slots⟩
  | .ldc n, ⟨stack, slots⟩ => return ⟨.int n :: stack, slots⟩
  | .loadShort kind slot, store => load kind slot.toNat store
  | .load kind slot, store => load kind slot.toNat store
  | .storeShort kind slot, store => keep kind slot.toNat store
  | .store kind slot, store => keep kind slot.toNat store
  | .arrayLoad kind, ⟨place :: base :: stack, slots⟩ =>
      return ⟨(← readItem base place (.ofElement kind)) :: stack, slots⟩
  | .arrayStore kind, ⟨v :: place :: base :: stack, slots⟩ => do
      writeItem base place (.ofElement kind) v
      return ⟨stack, slots⟩
  | .newIntArray, ⟨size :: stack, slots⟩ => return ⟨(← newIntArray size) :: stack, slots⟩
  | .arrayLength, ⟨base :: stack, slots⟩ => return ⟨(← Semantics.arrayLength base) :: stack, slots⟩
  | .new className, ⟨stack, slots⟩ => return ⟨(← newObject className) :: stack, slots⟩
  | .getField field, ⟨object :: stack, slots⟩ =>
      return ⟨(← readField object field.name (.ofDescriptor field.descriptor)) :: stack, slots⟩
  | .putField field, ⟨v :: object :: stack, slots⟩ => do
      writeField object field.name (.ofDescriptor field.descriptor) v
      return ⟨stack, slots⟩
  | .dup, ⟨v :: stack, slots⟩ => return ⟨v :: v :: stack, slots⟩
  | .pop, ⟨_ :: stack, slots⟩ => return ⟨stack, slots⟩
  | .arithmetic op, ⟨b :: a :: stack, slots⟩ => do
      let a ← toInt a
      let b ← toInt b
      return ⟨.int (← operate op a b) :: stack, slots⟩
  | .invoke kind method, store => invoke setting kind method store
  | .label _, store => return store
  | _, _ => throw .stuck

/-- A jump goes on at the label, if there is one in the code. The stack and the slots stay as they
are. -/
def jump (code : List Instr) (store : Store) (name : String) : Act (Next State) :=
  match afterLabel? name code with
  | some rest => return .goOn ⟨rest, store⟩
  | none => throw .stuck

/-- One instruction of `code`. At the end of the code the run stops, since it has met no return; branches
and returns are told apart from all other instructions. -/
def step (setting : Setting) (code : List Instr) : State → Act (Next State)
  | ⟨[], _⟩ => throw .fellOff
  | ⟨i :: rest, store⟩ =>
      match i, store with
      | .ifZero comparison target, ⟨v :: stack, slots⟩ => do
          if compare comparison (← toInt v) 0 then jump code ⟨stack, slots⟩ target
          else return .goOn ⟨rest, ⟨stack, slots⟩⟩
      | .ifInts comparison target, ⟨b :: a :: stack, slots⟩ => do
          let a ← toInt a
          let b ← toInt b
          if compare comparison a b then jump code ⟨stack, slots⟩ target
          else return .goOn ⟨rest, ⟨stack, slots⟩⟩
      | .goto target, store => jump code store target
      | .retValue kind, ⟨v :: _, _⟩ => return .finish (some (← checked (.ofKind kind) v))
      | .ret, _ => return .finish none
      | i, store => return .goOn ⟨rest, ← act setting i store⟩

/-- The first steps of a method's code, from an empty stack. The arguments are in the slots already. -/
def run (setting : Setting) (code : List Instr) (slots : Nat → Option Value) (steps : Nat) :
    Act Outcome :=
  runFor (step setting code) steps ⟨code, ⟨[], slots⟩⟩

section

variable (setting : Setting)

theorem grows_operate (op : Arithmetic) (a b : Int32) : Grows (operate op a b) := by
  cases op with
  | div => exact grows_divide a b
  | _ => exact .pure _

theorem grows_load (kind : Kind) (slot : Nat) (store : Store) : Grows (load kind slot store) := by
  unfold load
  split
  · exact (grows_checked _ _).bind fun _ => .pure _
  · exact .throw .stuck

theorem grows_keep (kind : Kind) (slot : Nat) (store : Store) : Grows (keep kind slot store) := by
  unfold keep
  split
  · exact (grows_checked _ _).bind fun _ => .pure _
  · exact .throw .stuck

theorem grows_call (kind : InvokeKind) (method : MethodRef) (stack : List Value) :
    Grows (call setting kind method stack) := by
  have hArguments : Grows (arguments method.parameters.length stack) := .ite (.pure _) (.throw .stuck)
  refine hArguments.bind fun r => ?_
  obtain ⟨values, stack⟩ := r
  cases kind with
  | static => exact (grows_perform setting _).bind fun _ => .pure _
  | virtual =>
      cases stack with
      | nil => exact .throw .stuck
      | cons receiver stack => exact (grows_callVirtual setting _ _ _ _).bind fun _ => .pure _
  | special =>
      cases stack with
      | nil => exact .throw .stuck
      | cons receiver stack => exact (grows_callSpecial setting _ _ _ _).bind fun _ => .pure _

theorem grows_act (i : Instr) (store : Store) : Grows (act setting i store) := by
  unfold act
  split
  case h_6 | h_7 => exact grows_load _ _ _
  case h_8 | h_9 => exact grows_keep _ _ _
  case h_10 => exact (grows_readItem _ _ _).bind fun _ => .pure _
  case h_11 => exact (grows_writeItem _ _ _ _).bind fun _ => .pure _
  case h_12 => exact (grows_newIntArray _).bind fun _ => .pure _
  case h_13 => exact (grows_arrayLength _).bind fun _ => .pure _
  case h_14 => exact (grows_newObject _).bind fun _ => .pure _
  case h_15 => exact (grows_readField _ _ _).bind fun _ => .pure _
  case h_16 => exact (grows_writeField _ _ _ _).bind fun _ => .pure _
  case h_19 =>
    exact (grows_toInt _).bind fun _ => (grows_toInt _).bind fun _ =>
      (grows_operate _ _ _).bind fun _ => .pure _
  case h_20 => exact (grows_call setting _ _ _).bind fun _ => .pure _
  all_goals first | exact .pure _ | exact .throw .stuck

theorem grows_jump (code : List Instr) (store : Store) (name : String) :
    Grows (jump code store name) := by
  unfold jump
  split
  · exact .pure _
  · exact .throw .stuck

theorem grows_step (code : List Instr) (s : State) : Grows (step setting code s) := by
  obtain ⟨rest, store⟩ := s
  cases rest with
  | nil => exact .throw .fellOff
  | cons i rest =>
      unfold step
      dsimp only
      split
      · exact (grows_toInt _).bind fun _ => .ite (grows_jump code _ _) (.pure _)
      · exact (grows_toInt _).bind fun _ => (grows_toInt _).bind fun _ =>
          .ite (grows_jump code _ _) (.pure _)
      · exact grows_jump code _ _
      · exact (grows_checked _ _).bind fun _ => .pure _
      · exact .pure _
      · exact (grows_act setting _ _).bind fun _ => .pure _

end

end MiniJava.Semantics.Stack
