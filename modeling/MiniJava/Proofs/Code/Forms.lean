import MiniJava.Code.Unit
import MiniJava.Lowering.Fresh

/-! The forms that lowered code takes, and the names and types that may stand in it. Every operand but
the one that an assignment copies, and every place of an item, is a variable, a constant, the receiver
of the method or a class. -/

namespace MiniJava.Code

/-- The names and the types that code may mention. Those that lowering brings in by itself belong to
every vocabulary. -/
structure Vocabulary where
  name : String → Prop
  ty : Ty → Prop
  temp : ∀ n, name (Lowering.tempName n)
  int32 : ty .int32
  boolean : ty .boolean
  intArray : ty .intArray
  void : ty .void

/-- Any names and any types. With this vocabulary only the forms of instructions are spoken of. -/
def Vocabulary.all : Vocabulary where
  name _ := True
  ty _ := True
  temp _ := trivial
  int32 := trivial
  boolean := trivial
  intArray := trivial
  void := trivial

variable (v : Vocabulary)

/-- An operand that is no item of an array, with its names and its type from the vocabulary. -/
inductive Operand.Simple : Operand → Prop
  | literal (value : Int32) {ty : Ty} (hTy : v.ty ty) : Simple (.literal value ty)
  | «variable» {name : String} {ty : Ty} (hName : v.name name) (hTy : v.ty ty) :
      Simple (.variable name ty)
  | self {ty : Ty} (hTy : v.ty ty) : Simple (.self ty)
  | classRef {name : String} (hName : v.name name) : Simple (.classRef name)

/-- An operand at most once indexed. The place of an item is simple, so nothing is read to find it but
variables. -/
inductive Operand.Flat : Operand → Prop
  | simple {o : Operand} (h : o.Simple v) : Flat o
  | element {array : String} {place : Operand} {ty : Ty} (hArray : v.name array)
      (hPlace : place.Simple v) (hTy : v.ty ty) : Flat (.element array place ty)

/-- A variable or an item of an array variable: what can stand on the left of an assignment. -/
inductive Operand.Target : Operand → Prop
  | «variable» {name : String} {ty : Ty} (hName : v.name name) (hTy : v.ty ty) :
      Target (.variable name ty)
  | element {array : String} {place : Operand} {ty : Ty} (hArray : v.name array)
      (hPlace : place.Simple v) (hTy : v.ty ty) : Target (.element array place ty)

/-- A condition of lowered code tests one operand or compares two, and none of these is an item of an
array. -/
inductive Condition.Formed : Condition → Prop
  | single {o : Operand} (h : o.Simple v) : Formed (.single o)
  | compare {op : BinaryOp} {left right : Operand} (hOp : op.isComparison = true)
      (hLeft : left.Simple v) (hRight : right.Simple v) : Formed (.compare op left right)

/-- A call of a method or of a constructor. Its receiver and its arguments are simple. -/
inductive Instr.Invocation : Instr → Prop
  | call {kind : CallKind} {target : Operand} {method : String} {arguments : List Operand} {ty : Ty}
      (hKind : kind ≠ .new ∧ kind ≠ .arrayLength) (hTarget : target.Simple v)
      (hMethod : v.name method ∨ method = "<init>") (hArguments : ∀ o ∈ arguments, o.Simple v)
      (hTy : v.ty ty) : Invocation (.call kind target (some method) arguments ty)

/-- An instruction whose value can be assigned. It may read one item of an array, or else its operands
are simple. -/
inductive Instr.Rhs : Instr → Prop
  | operand {o : Operand} (h : o.Flat v) : Rhs (.operand o)
  | binary {op : BinaryOp} {left right : Operand} {ty : Ty} (hOp : op ≠ .and)
      (hLeft : left.Simple v) (hRight : right.Simple v) (hTy : v.ty ty) :
      Rhs (.binary op left right ty)
  | not {o : Operand} (h : o.Simple v) : Rhs (.not o .boolean)
  | getField {object : Operand} {field : String} {ty : Ty} (hObject : object.Simple v)
      (hField : v.name field) (hTy : v.ty ty) : Rhs (.getField object field ty)
  | newArray {size : Operand} (h : size.Simple v) :
      Rhs (.call .new (.classRef "array") none [size] .intArray)
  | newObject {className : String} (hName : v.name className) (hTy : v.ty (.object className)) :
      Rhs (.call .new (.classRef className) none [] (.object className))
  | arrayLength {o : Operand} (h : o.Simple v) : Rhs (.call .arrayLength o none [] .int32)
  | invocation {i : Instr} (h : i.Invocation v) : Rhs i

/-- An instruction of lowered code. These are the forms in which lowering ever gives an instruction, and
there are no others. -/
inductive Instr.Formed : Instr → Prop
  | assign {dest : Operand} {ty : Ty} {rhs : Instr} (hDest : dest.Target v) (hTy : v.ty ty)
      (hRhs : rhs.Rhs v) : Formed (.assign dest ty rhs)
  | putField {object : Operand} {field : String} {ty : Ty} {value : Operand}
      (hObject : object.Simple v) (hField : v.name field) (hTy : v.ty ty) (hValue : value.Simple v) :
      Formed (.putField object field ty value)
  | ret {value : Option Operand} {ty : Ty} (hValue : ∀ o ∈ value, o.Simple v) (hTy : v.ty ty) :
      Formed (.ret value ty)
  | branch {c : Condition} (h : c.Formed v) (target : Label) : Formed (.branch c target)
  | goto (target : Label) : Formed (.goto target)
  | label (l : Label) : Formed (.label l)
  | invocation {i : Instr} (h : i.Invocation v) : Formed i

/-- Code in which every instruction is one of lowered code. -/
def CodeFormed (code : List Instr) : Prop := ∀ i ∈ code, i.Formed v

namespace CodeFormed

variable {v : Vocabulary} {code rest : List Instr}

theorem nil : CodeFormed v [] := nofun

theorem cons {i : Instr} (hHead : i.Formed v) (hRest : CodeFormed v rest) : CodeFormed v (i :: rest) :=
  List.forall_mem_cons.mpr ⟨hHead, hRest⟩

theorem append (hCode : CodeFormed v code) (hRest : CodeFormed v rest) : CodeFormed v (code ++ rest) :=
  List.forall_mem_append.mpr ⟨hCode, hRest⟩

theorem snoc {i : Instr} (hCode : CodeFormed v code) (hLast : i.Formed v) :
    CodeFormed v (code ++ [i]) :=
  hCode.append (.cons hLast .nil)

end CodeFormed

/-- A variable whose name and type belong to the vocabulary, as for a field or a parameter. -/
structure Variable.Within (x : Variable) : Prop where
  name : v.name x.name
  ty : v.ty x.ty

/-- A method of lowered code: its name, its variables and its type belong to the vocabulary, and every
instruction of its body is formed. -/
structure Method.Formed (m : Method) : Prop where
  name : v.name m.name
  parameters : ∀ p ∈ m.parameters, p.Within v
  returnType : v.ty m.returnType
  body : CodeFormed v m.body

/-- A class of lowered code. Its imports are names of the vocabulary with points between them, and so are
read segment by segment. -/
structure ClassUnit.Formed (u : ClassUnit) : Prop where
  name : v.name u.name
  superClass : ∀ name ∈ u.superClass, v.name name
  imports : ∀ path ∈ u.imports, ∃ segments : List String, (∀ segment ∈ segments, v.name segment) ∧
    path = String.intercalate "." segments
  fields : ∀ x ∈ u.fields, x.Within v
  methods : ∀ m ∈ u.methods, m.Formed v

end MiniJava.Code
