import MiniJava.Code.Unit
import Mathlib.Data.List.Forall2

/-! Three-address code that differs only in the names of its variables and in the numbers of its
labels. Which names and which labels stand for each other is given by two relations. -/

namespace MiniJava.Code

variable {names : String → String → Prop} {labels : Label → Label → Prop}

/-- Operands of the same form and type with names that stand for each other. Constants, the receiver and
classes are the same on both sides. -/
inductive Operand.Alike (names : String → String → Prop) : Operand → Operand → Prop where
  | literal (value : Int32) (ty : Ty) : Alike names (.literal value ty) (.literal value ty)
  | variable {name name' : String} (hName : names name name') (ty : Ty) :
      Alike names (.variable name ty) (.variable name' ty)
  | element {array array' : String} {place place' : Operand} (hArray : names array array')
      (hPlace : Alike names place place') (ty : Ty) :
      Alike names (.element array place ty) (.element array' place' ty)
  | self (ty : Ty) : Alike names (.self ty) (.self ty)
  | classRef (name : String) : Alike names (.classRef name) (.classRef name)

/-- Conditions that test operands which are alike, by the same operator if there are two. -/
inductive Condition.Alike (names : String → String → Prop) : Condition → Condition → Prop where
  | single {o o' : Operand} (h : o.Alike names o') : Alike names (.single o) (.single o')
  | compare (op : BinaryOp) {left left' right right' : Operand} (hLeft : left.Alike names left')
      (hRight : right.Alike names right') :
      Alike names (.compare op left right) (.compare op left' right')

/-- Instructions of the same form with operands that are alike and labels that stand for each other.
Everything else about them is the same. -/
inductive Instr.Alike (names : String → String → Prop) (labels : Label → Label → Prop) :
    Instr → Instr → Prop where
  | assign {dest dest' : Operand} {rhs rhs' : Instr} (hDest : dest.Alike names dest') (ty : Ty)
      (hRhs : Alike names labels rhs rhs') :
      Alike names labels (.assign dest ty rhs) (.assign dest' ty rhs')
  | operand {o o' : Operand} (h : o.Alike names o') : Alike names labels (.operand o) (.operand o')
  | binary (op : BinaryOp) {left left' right right' : Operand} (hLeft : left.Alike names left')
      (hRight : right.Alike names right') (ty : Ty) :
      Alike names labels (.binary op left right ty) (.binary op left' right' ty)
  | not {o o' : Operand} (h : o.Alike names o') (ty : Ty) :
      Alike names labels (.not o ty) (.not o' ty)
  | retNone (ty : Ty) : Alike names labels (.ret none ty) (.ret none ty)
  | retSome {o o' : Operand} (h : o.Alike names o') (ty : Ty) :
      Alike names labels (.ret (some o) ty) (.ret (some o') ty)
  | getField {object object' : Operand} (h : object.Alike names object') (field : String)
      (ty : Ty) : Alike names labels (.getField object field ty) (.getField object' field ty)
  | putField {object object' value value' : Operand} (h : object.Alike names object')
      (field : String) (ty : Ty) (hValue : value.Alike names value') :
      Alike names labels (.putField object field ty value) (.putField object' field ty value')
  | call (kind : CallKind) {receiver receiver' : Operand} (h : receiver.Alike names receiver')
      (method : Option String) {arguments arguments' : List Operand}
      (hArguments : List.Forall₂ (Operand.Alike names) arguments arguments') (returnType : Ty) :
      Alike names labels (.call kind receiver method arguments returnType)
        (.call kind receiver' method arguments' returnType)
  | branch {condition condition' : Condition} (h : condition.Alike names condition')
      {target target' : Label} (hTarget : labels target target') :
      Alike names labels (.branch condition target) (.branch condition' target')
  | goto {target target' : Label} (h : labels target target') :
      Alike names labels (.goto target) (.goto target')
  | label {l l' : Label} (h : labels l l') : Alike names labels (.label l) (.label l')

/-- Code of the same length whose instructions are alike one by one, under one correspondence of names
and of labels. -/
abbrev CodeAlike (names : String → String → Prop) (labels : Label → Label → Prop) :
    List Instr → List Instr → Prop :=
  List.Forall₂ (Instr.Alike names labels)

namespace Operand.Alike

variable {o o' : Operand}

theorem ty_eq (h : o.Alike names o') : o.ty = o'.ty := by
  cases h <;> rfl

theorem isElement_eq (h : o.Alike names o') : o.isElement = o'.isElement := by
  cases h <;> rfl

theorem names_alike (h : o.Alike names o') : List.Forall₂ names o.names o'.names := by
  induction h with
  | «variable» hName _ => exact .cons hName .nil
  | element hArray _ _ ih => exact .cons hArray ih
  | literal | self | classRef => exact .nil

/-- If one operand names an array, so does the other, and the two names stand for each other. -/
theorem variableName {array array' : String} (h : o.Alike names o')
    (hArray : o.variableName? = some array) (hArray' : o'.variableName? = some array') :
    names array array' := by
  cases h with
  | «variable» hName _ =>
      obtain rfl := Option.some.inj hArray
      obtain rfl := Option.some.inj hArray'
      exact hName
  | _ => cases hArray

end Operand.Alike

theorem Condition.Alike.names_alike {c c' : Condition} (h : c.Alike names c') :
    List.Forall₂ names c.names c'.names := by
  cases h with
  | single h => exact h.names_alike
  | compare _ hLeft hRight => exact List.rel_append hLeft.names_alike hRight.names_alike

namespace Instr.Alike

variable {i i' : Instr}

theorem valueType_eq (h : i.Alike names labels i') : i.valueType = i'.valueType := by
  cases h with
  | operand h => exact h.ty_eq
  | _ => rfl

theorem isReturn_eq (h : i.Alike names labels i') : i.isReturn = i'.isReturn := by
  cases h <;> rfl

/-- The names in two instructions stand for each other in their order, destinations included. -/
theorem names_alike (h : i.Alike names labels i') : List.Forall₂ names i.names i'.names := by
  induction h with
  | assign hDest _ _ ih => exact List.rel_append hDest.names_alike ih
  | binary _ hLeft hRight _ => exact List.rel_append hLeft.names_alike hRight.names_alike
  | operand h | not h _ | retSome h _ | getField h _ _ => exact h.names_alike
  | putField h _ _ hValue => exact List.rel_append h.names_alike hValue.names_alike
  | call _ h _ hArguments _ =>
      exact List.rel_append h.names_alike
        (List.rel_flatMap hArguments fun _ _ hArgument => hArgument.names_alike)
  | branch h _ => exact h.names_alike
  | retNone | goto | label => exact .nil

end Instr.Alike

/-- The names in two codes stand for each other in the order of their appearance, the order in which
slots are dealt. -/
theorem CodeAlike.names_alike {code code' : List Instr} (h : CodeAlike names labels code code') :
    List.Forall₂ names (code.flatMap Instr.names) (code'.flatMap Instr.names) :=
  List.rel_flatMap h fun _ _ hInstr => hInstr.names_alike

/-- Whether code ends with a return can be told without looking at names or labels. -/
theorem CodeAlike.getLast?_isReturn {code code' : List Instr}
    (h : CodeAlike names labels code code') :
    code.getLast?.any Instr.isReturn = code'.getLast?.any Instr.isReturn := by
  have hMap : code.map Instr.isReturn = code'.map Instr.isReturn := by
    induction h with
    | nil => rfl
    | cons hInstr _ ih => rw [List.map_cons, List.map_cons, hInstr.isReturn_eq, ih]
  have hLast := congrArg (fun returns => returns.getLast?.any (· = true)) hMap
  simpa [Option.any_map, Function.comp_def] using hLast

end MiniJava.Code
