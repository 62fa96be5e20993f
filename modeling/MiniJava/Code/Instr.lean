import MiniJava.Code.Type

/-!
Three-address instructions. A method body is a flat list of them; control moves by labels.
-/

namespace MiniJava.Code

/-- What an instruction can work on without running other code first. An operand carries its type, so
that code can be emitted from an instruction without looking its variables up. -/
inductive Operand where
  | literal (value : Int32) (ty : Ty)
  | variable (name : String) (ty : Ty)
  /-- The item of the array variable `array` at the place that the operand `place` gives. -/
  | element (array : String) (place : Operand) (ty : Ty)
  | self (ty : Ty)
  | classRef (name : String)
deriving DecidableEq, Repr, Inhabited

namespace Operand

def int (value : Int32) : Operand := .literal value .int32

def bool (value : Bool) : Operand := .literal (if value then 1 else 0) .boolean

/-- The type of the operand; a class is of its own type, so that the class of a static call is found as
that of any other receiver. -/
def ty : Operand → Ty
  | .literal _ ty | .variable _ ty | .element _ _ ty | .self ty => ty
  | .classRef name => .object name

/-- The name of a plain variable. An array whose items are read must be one, since an operand names it
and does not hold it. -/
def variableName? : Operand → Option String
  | .variable name _ => some name
  | _ => none

def isElement : Operand → Bool
  | .element _ _ _ => true
  | _ => false

/-- The variables that the operand reads, in the order in which it names them. Slots are given in this
order, which is why a list is kept and not a set. -/
def names : Operand → List String
  | .variable name _ => [name]
  | .element array place _ => array :: place.names
  | .literal _ _ | .self _ | .classRef _ => []

/-- An operand as the text of an instruction shows it: with its type behind it, except for a class. The
receiver is shown by a word of its own. -/
def text : Operand → String
  | .literal value ty => toString value.toInt ++ ty.text
  | .variable name ty => name ++ ty.text
  | .element array place ty => array ++ "[" ++ place.text ++ "]" ++ ty.text
  | .self ty => "this" ++ ty.text
  | .classRef name => name

end Operand

/-- The operators of three-address code. The last of them works on truth values and is not how a
short-circuited condition is lowered. -/
inductive BinaryOp where
  | add
  | sub
  | mul
  | div
  | lt
  | gt
  | le
  | ge
  | and
deriving DecidableEq, Repr, Inhabited

namespace BinaryOp

def isComparison : BinaryOp → Bool
  | .lt | .gt | .le | .ge => true
  | _ => false

def text : BinaryOp → String
  | .add => "+"
  | .sub => "-"
  | .mul => "*"
  | .div => "/"
  | .lt => "<"
  | .gt => ">"
  | .le => "<="
  | .ge => ">="
  | .and => "&&"

end BinaryOp

/-- What a label stands at: a part of a conditional or of a loop, or its end. Conjunctions take the
labels of conditionals, which are all that they need. -/
inductive LabelKind where
  | ifBody
  | endIf
  | whileBody
  | endWhile
deriving DecidableEq, Repr, Inhabited

def LabelKind.text : LabelKind → String
  | .ifBody => "ifbody"
  | .endIf => "endif"
  | .whileBody => "whilebody"
  | .endWhile => "endwhile"

/-- A label of three-address code: its kind and the number of the statement that it belongs to. The
number has no bound here; one of 32 bits agrees with it as long as it comes from a counter that stays
below 2^32. -/
structure Label where
  kind : LabelKind
  id : Nat
deriving DecidableEq, Repr, Inhabited

/-- Kind and number make up the text, so that labels of one number are told apart by their kinds. -/
def Label.text (label : Label) : String := label.kind.text ++ "_" ++ toString label.id

/-- What a branch tests: that one operand is not zero, or a comparison of two. Truth values are zero and
one, so the first form serves for them. -/
inductive Condition where
  | single (operand : Operand)
  | compare (op : BinaryOp) (left right : Operand)
deriving DecidableEq, Repr, Inhabited

namespace Condition

def names : Condition → List String
  | .single operand => operand.names
  | .compare _ left right => left.names ++ right.names

def text : Condition → String
  | .single operand => operand.text
  | .compare op left right => left.text ++ " " ++ op.text ++ ".bool " ++ right.text

end Condition

/-- How a call is to be made. An allocation and the length of an array are calls too, although no method
is run for them. -/
inductive CallKind where
  | new
  | invokeSpecial
  | invokeVirtual
  | invokeStatic
  | arrayLength
deriving DecidableEq, Repr, Inhabited

def CallKind.text : CallKind → String
  | .new => "new"
  | .invokeSpecial => "invokespecial"
  | .invokeVirtual => "invokevirtual"
  | .invokeStatic => "invokestatic"
  | .arrayLength => "arraylength"

/-- The instructions. A right-hand side is one as well, so that assignments nest one deep; what an
instruction computes and nothing assigns is dropped. -/
inductive Instr where
  | assign (dest : Operand) (ty : Ty) (rhs : Instr)
  | operand (operand : Operand)
  | binary (op : BinaryOp) (left right : Operand) (ty : Ty)
  | not (operand : Operand) (ty : Ty)
  | ret (value : Option Operand) (ty : Ty)
  | getField (object : Operand) (field : String) (ty : Ty)
  | putField (object : Operand) (field : String) (ty : Ty) (value : Operand)
  | call (kind : CallKind) (receiver : Operand) (method : Option String)
      (arguments : List Operand) (returnType : Ty)
  | branch (condition : Condition) (target : Label)
  | goto (target : Label)
  | label (label : Label)
deriving DecidableEq, Repr, Inhabited

namespace Instr

/-- The type of the value that the instruction yields; void where it yields none. An assignment counts
with the type that it is written with. -/
def valueType : Instr → Ty
  | .assign _ ty _ | .binary _ _ _ ty | .not _ ty | .getField _ _ ty => ty
  | .operand o => o.ty
  | .call _ _ _ _ returnType => returnType
  | .ret _ _ | .putField _ _ _ _ | .branch _ _ | .goto _ | .label _ => .void

/-- The variables that the instruction names, in order. A variable that is assigned counts like one that
is read, for both need a slot. -/
def names : Instr → List String
  | .assign dest _ rhs => dest.names ++ rhs.names
  | .operand o => o.names
  | .binary _ left right _ => left.names ++ right.names
  | .not o _ => o.names
  | .ret value _ => (value.map Operand.names).getD []
  | .getField object _ _ => object.names
  | .putField object _ _ value => object.names ++ value.names
  | .call _ receiver _ arguments _ => receiver.names ++ arguments.flatMap Operand.names
  | .branch condition _ => condition.names
  | .goto _ | .label _ => []

def isReturn : Instr → Bool
  | .ret _ _ => true
  | _ => false

/-- The opening of a call up to its first argument. An allocation of an array shows no receiver,
an invocation shows the method. -/
def callHead (kind : CallKind) (receiver : Operand) (method : Option String) (returnType : Ty) :
    String :=
  match kind with
  | .new => if returnType.isArray then "new(array" else "new(" ++ receiver.text
  | .arrayLength => "arraylength(" ++ receiver.text
  | .invokeSpecial | .invokeVirtual | .invokeStatic =>
      kind.text ++ "(" ++ receiver.text ++ ", \"" ++ method.getD "" ++ "\""

def text : Instr → String
  | .assign dest ty rhs => dest.text ++ " :=" ++ ty.text ++ " " ++ rhs.text
  | .operand o => o.text
  | .binary op left right ty => left.text ++ " " ++ op.text ++ ty.text ++ " " ++ right.text
  | .not o ty => "!" ++ ty.text ++ " " ++ o.text
  | .ret (some value) ty => "ret" ++ ty.text ++ " " ++ value.text
  | .ret none ty => "ret" ++ ty.text
  | .getField object field ty =>
      "getfield(" ++ object.text ++ ", " ++ field ++ ty.text ++ ")" ++ ty.text
  | .putField object field ty value =>
      "putfield(" ++ object.text ++ ", " ++ field ++ ty.text ++ ", " ++ value.text ++ ").V"
  | .call kind receiver method arguments returnType =>
      callHead kind receiver method returnType ++
        String.join (arguments.map fun argument => ", " ++ argument.text) ++ ")" ++ returnType.text
  | .branch condition target => "if (" ++ condition.text ++ ") goto " ++ target.text
  | .goto target => "goto " ++ target.text
  | .label l => l.text ++ ":"

end Instr

end MiniJava.Code
