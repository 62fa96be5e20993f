/-!
Instructions of the stack machine, as the assembler spells them, and what each needs from the
operand stack and leaves on it.
-/

namespace MiniJava.Stack

/-- What a local slot or a stack cell holds. Truth values are integers here, and all objects and arrays
are references, whatever their classes. -/
inductive Kind where
  | int
  | reference
deriving DecidableEq, Repr, Inhabited

/-- The letter with which mnemonics of a kind begin. Loads, stores and returns are families of
instructions, and the letter tells their members apart. -/
def Kind.letter : Kind → String
  | .int => "i"
  | .reference => "a"

/-- What an array holds; booleans take a byte each. The items of an array are told apart further than
slots are, because they are kept in less room. -/
inductive ElementKind where
  | int
  | byte
  | reference
deriving DecidableEq, Repr, Inhabited

def ElementKind.letter : ElementKind → String
  | .int => "i"
  | .byte => "b"
  | .reference => "a"

/-- Operations on the two topmost integers. Bits are combined only to make a truth value of two, or to
turn one around. -/
inductive Arithmetic where
  | add
  | sub
  | mul
  | div
  | and
  | xor
deriving DecidableEq, Repr, Inhabited

def Arithmetic.text : Arithmetic → String
  | .add => "iadd"
  | .sub => "isub"
  | .mul => "imul"
  | .div => "idiv"
  | .and => "iand"
  | .xor => "ixor"

/-- How two integers, or one and zero, are compared by a branch. -/
inductive Comparison where
  | ne
  | lt
  | ge
  | gt
  | le
deriving DecidableEq, Repr, Inhabited

def Comparison.text : Comparison → String
  | .ne => "ne"
  | .lt => "lt"
  | .ge => "ge"
  | .gt => "gt"
  | .le => "le"

/-- A field with its class and its descriptor, all of them as text. The class is spelt as class files do,
and the assembler reads all three behind the instruction. -/
structure FieldRef where
  className : String
  name : String
  descriptor : String
deriving DecidableEq, Repr, Inhabited

def FieldRef.text (field : FieldRef) : String :=
  field.className ++ "/" ++ field.name ++ " " ++ field.descriptor

/-- A method with the descriptors of its parameters and of its result. The descriptors are kept one by
one, because their number says how many arguments an invocation takes. -/
structure MethodRef where
  className : String
  name : String
  parameters : List String
  result : String
deriving DecidableEq, Repr, Inhabited

namespace MethodRef

/-- The descriptor of the method, as the assembler reads it behind the name. Descriptors of parameters
follow one another without a mark between them, for each of them says where it ends. -/
def descriptor (method : MethodRef) : String :=
  "(" ++ String.join method.parameters ++ ")" ++ method.result

/-- Whether the method leaves a value on the stack, which is read off its descriptor. -/
def returnsValue (method : MethodRef) : Bool := method.result ≠ "V"

def text (method : MethodRef) : String :=
  method.className ++ "/" ++ method.name ++ method.descriptor

end MethodRef

/-- How the method of an invocation is found: by the class of the receiver when it runs, by the class
that is named, or specially, as for constructors. -/
inductive InvokeKind where
  | virtual
  | static
  | special
deriving DecidableEq, Repr, Inhabited

namespace InvokeKind

def hasReceiver : InvokeKind → Bool
  | .static => false
  | .virtual | .special => true

def text : InvokeKind → String
  | .virtual => "invokevirtual"
  | .static => "invokestatic"
  | .special => "invokespecial"

end InvokeKind

/-- The instructions that code is made of. Jumps name labels by their texts, which stand in the code as
instructions that do nothing. -/
inductive Instr where
  | iconstM1
  | iconst (value : UInt8)
  | bipush (value : Int8)
  | sipush (value : Int16)
  | ldc (value : Int32)
  /-- The short form, with the slot in the mnemonic. -/
  | loadShort (kind : Kind) (slot : UInt8)
  | load (kind : Kind) (slot : UInt16)
  | storeShort (kind : Kind) (slot : UInt8)
  | store (kind : Kind) (slot : UInt16)
  | arrayLoad (kind : ElementKind)
  | arrayStore (kind : ElementKind)
  | newIntArray
  | arrayLength
  | new (className : String)
  | getField (field : FieldRef)
  | putField (field : FieldRef)
  | dup
  | pop
  | arithmetic (op : Arithmetic)
  /-- Compares the top of the stack with zero. -/
  | ifZero (comparison : Comparison) (target : String)
  /-- Compares the two topmost integers. -/
  | ifInts (comparison : Comparison) (target : String)
  | goto (target : String)
  | invoke (kind : InvokeKind) (method : MethodRef)
  | retValue (kind : Kind)
  | ret
  | label (name : String)
deriving DecidableEq, Repr, Inhabited

namespace Instr

/-- How many operands the instruction takes from the stack. A copy of the topmost value counts as taking
it and putting it back twice, so that the stack may not be empty before it. -/
def pops : Instr → Nat
  | .iconstM1 | .iconst _ | .bipush _ | .sipush _ | .ldc _ => 0
  | .loadShort _ _ | .load _ _ | .new _ => 0
  | .storeShort _ _ | .store _ _ | .pop | .dup => 1
  | .newIntArray | .arrayLength | .getField _ => 1
  | .arrayLoad _ | .putField _ | .arithmetic _ => 2
  | .arrayStore _ => 3
  | .ifZero _ _ | .retValue _ => 1
  | .ifInts _ _ => 2
  | .invoke kind method => method.parameters.length + if kind.hasReceiver then 1 else 0
  | .goto _ | .ret | .label _ => 0

/-- How many values the instruction then puts on the stack. Together with what it takes this is all that
the depth of the stack depends on. -/
def pushes : Instr → Nat
  | .iconstM1 | .iconst _ | .bipush _ | .sipush _ | .ldc _ => 1
  | .loadShort _ _ | .load _ _ | .new _ => 1
  | .dup => 2
  | .newIntArray | .arrayLength | .getField _ | .arrayLoad _ | .arithmetic _ => 1
  | .invoke _ method => if method.returnsValue then 1 else 0
  | .storeShort _ _ | .store _ _ | .pop | .putField _ | .arrayStore _ => 0
  | .ifZero _ _ | .ifInts _ _ | .goto _ | .retValue _ | .ret | .label _ => 0

/-- By how much the instruction changes the depth of the stack. It is negative for an instruction that
takes more than it puts back. -/
def delta (i : Instr) : Int := i.pushes - i.pops

/-- The label to which the instruction may jump. No instruction has more than one; returns leave the
method and have none. -/
def target? : Instr → Option String
  | .ifZero _ target | .ifInts _ target | .goto target => some target
  | _ => none

/-- Whether control never goes on to the next instruction. What stands behind such an instruction is
reached by a label or not at all. -/
def isUnconditional : Instr → Bool
  | .goto _ | .retValue _ | .ret => true
  | _ => false

def isLabel : Instr → Bool
  | .label _ => true
  | _ => false

def text : Instr → String
  | .iconstM1 => "iconst_m1"
  | .iconst value => "iconst_" ++ toString value.toNat
  | .bipush value => "bipush " ++ toString value.toInt
  | .sipush value => "sipush " ++ toString value.toInt
  | .ldc value => "ldc " ++ toString value.toInt
  | .loadShort kind slot => kind.letter ++ "load_" ++ toString slot.toNat
  | .load kind slot => kind.letter ++ "load " ++ toString slot.toNat
  | .storeShort kind slot => kind.letter ++ "store_" ++ toString slot.toNat
  | .store kind slot => kind.letter ++ "store " ++ toString slot.toNat
  | .arrayLoad kind => kind.letter ++ "aload"
  | .arrayStore kind => kind.letter ++ "astore"
  | .newIntArray => "newarray int"
  | .arrayLength => "arraylength"
  | .new className => "new " ++ className
  | .getField field => "getfield " ++ field.text
  | .putField field => "putfield " ++ field.text
  | .dup => "dup"
  | .pop => "pop"
  | .arithmetic op => op.text
  | .ifZero comparison target => "if" ++ comparison.text ++ " " ++ target
  | .ifInts comparison target => "if_icmp" ++ comparison.text ++ " " ++ target
  | .goto target => "goto " ++ target
  | .invoke kind method => kind.text ++ " " ++ method.text
  | .retValue kind => kind.letter ++ "return"
  | .ret => "return"
  | .label name => name ++ ":"

end Instr

end MiniJava.Stack
