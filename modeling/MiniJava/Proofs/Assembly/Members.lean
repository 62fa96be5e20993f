import MiniJava.Proofs.Assembly.Balance
import MiniJava.Proofs.Lowering.References
import MiniJava.Proofs.Lowering.Typing

/-! Which members stack code refers to: those of the three-address code, one for one and in the same
order. The class of each reference is found from the operand through which it is made. -/

namespace MiniJava.Stack

/-- Whether the instruction refers to a class: it allocates, calls, or accesses a field. Arrays have no
class to refer to. -/
def Instr.isMember : Instr → Bool
  | .new _ | .getField _ | .putField _ | .invoke _ _ => true
  | _ => false

/-- The part of some code that refers to classes, in the order of the code. Everything else may be looked
at without knowing any class. -/
def members (code : List Instr) : List Instr := code.filter Instr.isMember

@[simp] theorem members_nil : members [] = [] := rfl

@[simp] theorem members_append (code rest : List Instr) :
    members (code ++ rest) = members code ++ members rest := List.filter_append ..

/-- Reading code one instruction at a time, an instruction that refers to a member is the next one of the
members. -/
theorem members_cons_member {i : Instr} (h : i.isMember = true) (code : List Instr) :
    members (i :: code) = i :: members code := List.filter_cons_of_pos h

theorem members_cons_other {i : Instr} (h : i.isMember = false) (code : List Instr) :
    members (i :: code) = members code := List.filter_cons_of_neg (Bool.eq_false_iff.mp h)

theorem isMember_pushInt (value : Int32) : (pushInt value).isMember = false := by
  unfold pushInt
  dsimp only
  split_ifs <;> rfl

theorem isMember_loadSlot (kind : Kind) (slot : UInt16) :
    (loadSlot kind slot).isMember = false := by
  unfold loadSlot
  split_ifs <;> rfl

theorem isMember_storeSlot (kind : Kind) (slot : UInt16) :
    (storeSlot kind slot).isMember = false := by
  unfold storeSlot
  split_ifs <;> rfl

end MiniJava.Stack

namespace MiniJava.Assembly

open Code (CallKind Condition Method Operand Ty)
open Stack (isMember_loadSlot isMember_pushInt isMember_storeSlot members_append members_cons_member
  members_cons_other members_nil pushInt)

/-- The stack instruction that makes the reference of an instruction. Class, name and descriptors in it
are those that the scope gives. -/
inductive Selects (scope : ClassScope) : Code.Instr → Stack.Instr → Prop where
  | new {receiver : Operand} {className : String} (method : Option String)
      (arguments : List Operand) (ty : Ty) (hClass : scope.classOf receiver = .ok className) :
      Selects scope (.call .new receiver method arguments ty) (.new className)
  | invokeStatic {receiver : Operand} {className : String} (name : String)
      (arguments : List Operand) (ty : Ty) (hClass : scope.classOf receiver = .ok className) :
      Selects scope (.call .invokeStatic receiver (some name) arguments ty)
        (.invoke .static (scope.methodRef className name arguments ty))
  | invokeVirtual {receiver : Operand} {className : String} (name : String)
      (arguments : List Operand) (ty : Ty) (hClass : scope.classOf receiver = .ok className) :
      Selects scope (.call .invokeVirtual receiver (some name) arguments ty)
        (.invoke .virtual (scope.methodRef className name arguments ty))
  | invokeSpecial {receiver : Operand} {className : String} (name : String)
      (arguments : List Operand) (ty : Ty) (hSelf : ∀ ty, receiver ≠ .self ty)
      (hClass : scope.classOf receiver = .ok className) :
      Selects scope (.call .invokeSpecial receiver (some name) arguments ty)
        (.invoke .special (scope.methodRef className name arguments ty))
  | invokeSuper (selfTy : Ty) (name : String) (arguments : List Operand) (ty : Ty) :
      Selects scope (.call .invokeSpecial (.self selfTy) (some name) arguments ty)
        (.invoke .special (scope.methodRef scope.superName name arguments ty))
  | getField {object : Operand} {field : String} {ty : Ty} {ref : Stack.FieldRef}
      (hField : scope.fieldRef object field ty = .ok ref) :
      Selects scope (.getField object field ty) (.getField ref)
  | putField {object : Operand} {field : String} {ty : Ty} {ref : Stack.FieldRef} (value : Operand)
      (hField : scope.fieldRef object field ty = .ok ref) :
      Selects scope (.putField object field ty value) (.putField ref)

/-- Stack code makes the references of three-address code, one for one and in their order, whatever else
the two hold. -/
abbrev CodeSelects (scope : ClassScope) (source : List Code.Instr) (code : List Stack.Instr) : Prop :=
  List.Forall₂ (Selects scope) (Code.members source) (Stack.members code)

namespace Site

variable {site : Site} {p p' : Progress} {code : List Stack.Instr}

/-- Loading an operand refers to no member, for fields are read by instructions of their own. -/
theorem members_load {o : Operand} (h : site.load o = .ok code) : Stack.members code = [] := by
  induction o generalizing code with
  | literal value ty =>
      rw [load_literal_ok.mp h, members_cons_other (isMember_pushInt value), members_nil]
  | «variable» name ty =>
      obtain ⟨kind, slot, _, _, rfl⟩ := load_variable_ok.mp h
      rw [members_cons_other (isMember_loadSlot kind slot), members_nil]
  | element array place ty ih =>
      obtain ⟨_, slot, _, _, _, hPlace, rfl⟩ := load_element_ok.mp h
      rw [List.cons_append, members_cons_other (isMember_loadSlot .reference slot), members_append,
        ih hPlace]
      rfl
  | self ty =>
      rw [(load_self_ok.mp h).2, members_cons_other (isMember_loadSlot .reference 0), members_nil]
  | classRef name => exact (load_classRef_ok h).elim

theorem members_loadAll {os : List Operand} (h : site.loadAll os = .ok code) :
    Stack.members code = [] := by
  induction os generalizing code with
  | nil => rw [loadAll_nil_ok.mp h, members_nil]
  | cons o rest ih =>
      obtain ⟨_, _, hFirst, hOthers, rfl⟩ := loadAll_cons_ok.mp h
      rw [members_append, members_load hFirst, ih hOthers, List.append_nil]

/-- An invocation refers to one method, behind operands that refer to nothing. So it is the last
reference of its code. -/
theorem members_invocation {kind : Stack.InvokeKind} {className name : String}
    {receiverCode : List Stack.Instr} {arguments : List Operand} {returnType : Ty} {pushes : Bool}
    (hReceiver : Stack.members receiverCode = [])
    (h : site.invocation kind className name receiverCode arguments returnType =
      .ok (code, pushes)) :
    Stack.members code =
      [.invoke kind (site.scope.methodRef className name arguments returnType)] := by
  obtain ⟨_, hArguments, rfl, -⟩ := invocation_ok.mp h
  rw [members_append, members_append, hReceiver, members_loadAll hArguments]
  rfl

/-- The code of a call has the one reference of the call: the object that is made, or the method that is
called. Arrays are made without any. -/
theorem selects_call {i : Code.Instr} {pushes : Bool}
    (h : (site.call i).run p = .ok ((code, pushes), p')) : CodeSelects site.scope [i] code := by
  unfold CodeSelects
  cases i with
  | call kind receiver method arguments returnType =>
      cases kind with
      | new =>
          rw [Code.members_cons, Code.members_nil, Code.Instr.member?]
          cases hArray : returnType.isArray with
          | true =>
              obtain ⟨hNew, -⟩ := (call_newArray_run hArray).mp h
              obtain ⟨_, _, _, _, hLoad, rfl⟩ := newArray_ok.mp hNew
              rw [members_append, members_load hLoad]
              exact .nil
          | false =>
              obtain ⟨_, hClass, rfl, -⟩ := (call_newObject_run hArray).mp h
              exact .cons (.new method arguments returnType hClass) .nil
      | arrayLength =>
          obtain ⟨_, hLoad, rfl, -⟩ := call_arrayLength_run.mp h
          rw [members_append, members_load hLoad]
          exact .nil
      | invokeStatic =>
          obtain ⟨_, name, hClass, rfl, hCode, -⟩ := call_invokeStatic_run.mp h
          rw [members_invocation rfl hCode]
          exact .cons (.invokeStatic name arguments returnType hClass) .nil
      | invokeVirtual =>
          obtain ⟨_, name, _, hClass, rfl, hLoad, hCode, -⟩ := call_invokeVirtual_run.mp h
          rw [members_invocation (members_load hLoad) hCode]
          exact .cons (.invokeVirtual name arguments returnType hClass) .nil
      | invokeSpecial =>
          obtain ⟨name, _, _, rfl, hReceiver, hCode⟩ := call_invokeSpecial_run.mp h
          rcases specialReceiver_run.mp hReceiver with ⟨_, _, rfl, _, hClass, rfl, _⟩ |
            ⟨_, _, rfl, _, hClass, hLoad, _⟩ | ⟨ty, rfl, rfl, hLoad, _⟩ | ⟨_, hSelf, hClass, hLoad, _⟩
          · rw [members_invocation rfl hCode]
            refine .cons (.invokeSpecial name arguments returnType ?_ hClass) .nil
            rintro _ ⟨⟩
          · rw [members_invocation (members_load hLoad) hCode]
            refine .cons (.invokeSpecial name arguments returnType ?_ hClass) .nil
            rintro _ ⟨⟩
          · rw [members_invocation (members_load hLoad) hCode]
            exact .cons (.invokeSuper ty name arguments returnType) .nil
          · rw [members_invocation (members_load hLoad) hCode]
            exact .cons (.invokeSpecial name arguments returnType hSelf hClass) .nil
  | _ => exact (select_throw_ok h).elim

theorem members_comparisonCode (comparison : Stack.Comparison) (labels : String × String) :
    Stack.members (comparisonCode comparison labels) = [] := by
  have hPush : ∀ value rest, Stack.members (pushInt value :: rest) = Stack.members rest :=
    fun value rest => members_cons_other (isMember_pushInt value) rest
  rw [comparisonCode, members_cons_other rfl, hPush, members_cons_other rfl, members_cons_other rfl,
    hPush, members_cons_other rfl, members_nil]

theorem selects_value {i : Code.Instr} (h : (site.value i).run p = .ok (code, p')) :
    CodeSelects site.scope [i] code := by
  unfold CodeSelects
  cases i with
  | operand o =>
      obtain ⟨hLoad, -⟩ := value_operand_run.mp h
      rw [members_load hLoad]
      exact .nil
  | binary op left right ty =>
      rw [value_binary] at h
      obtain ⟨_, _, hLeft, hRight, ⟨_, _, _, rfl⟩ | ⟨_, _, _, rfl⟩⟩ := binary_run.mp h
      · rw [members_append, members_append, members_load hLeft, members_load hRight]
        exact .nil
      · rw [members_append, members_append, members_load hLeft, members_load hRight,
          members_comparisonCode]
        exact .nil
  | not o ty =>
      obtain ⟨_, hLoad, rfl, -⟩ := value_not_run.mp h
      rw [members_append, members_load hLoad, members_cons_other (isMember_pushInt 1)]
      exact .nil
  | getField object field ty =>
      obtain ⟨_, _, hField, hLoad, rfl, -⟩ := value_getField_run.mp h
      rw [members_append, members_load hLoad]
      exact .cons (.getField hField) .nil
  | call kind receiver method arguments returnType =>
      rw [value_call, callValue_run] at h
      exact selects_call h
  | _ => exact (select_throw_ok h).elim

theorem selects_assign {dest : Operand} {ty : Ty} {rhs : Code.Instr}
    (h : (site.assign dest rhs).run p = .ok (code, p')) :
    CodeSelects site.scope [.assign dest ty rhs] code := by
  have hMember : Code.members [.assign dest ty rhs] = Code.members [rhs] := by
    rw [Code.members_cons, Code.members_cons, Code.Instr.member?]
  rw [CodeSelects, hMember]
  cases dest with
  | «variable» name destTy =>
      cases hNew : allocated? rhs with
      | some receiver =>
          obtain ⟨slot, _, _, hClass, rfl, _⟩ := (assign_newObject_run hNew).mp h
          rw [members_cons_member rfl, members_cons_other rfl,
            members_cons_other (isMember_storeSlot .reference slot)]
          cases rhs with
          | call kind target method arguments returnType =>
              cases kind with
              | new =>
                  rw [allocated?] at hNew
                  split at hNew
                  · cases hNew
                  · rename_i hArray
                    obtain rfl := Option.some.inj hNew
                    rw [Code.members_cons, Code.Instr.member?, if_neg hArray]
                    exact .cons (.new method arguments returnType hClass) .nil
              | _ => cases hNew
          | _ => cases hNew
      | none =>
          obtain ⟨_, _, kind, _, hValue, _, rfl⟩ := (assign_variable_run hNew).mp h
          rw [members_append, members_cons_other (isMember_storeSlot kind _), members_nil,
            List.append_nil]
          exact selects_value hValue
  | element array place destTy =>
      obtain ⟨_, slot, _, _, _, _, hPlace, hValue, rfl⟩ := assign_element_run.mp h
      rw [members_append, List.cons_append, members_cons_other (isMember_loadSlot .reference slot),
        members_append, members_load hPlace, List.nil_append, members_cons_other rfl, members_nil,
        List.append_nil]
      exact selects_value hValue
  | _ => exact (select_throw_ok h).elim

theorem members_branch {condition : Condition} {target : String}
    (h : site.branch condition target = .ok code) : Stack.members code = [] := by
  cases condition with
  | single o =>
      obtain ⟨_, hLoad, rfl⟩ := branch_single_ok.mp h
      rw [members_append, members_load hLoad]
      rfl
  | compare op left right =>
      obtain ⟨_, _, _, _, hLeft, hRight, rfl⟩ := branch_compare_ok.mp h
      rw [members_append, members_append, members_load hLeft, members_load hRight]
      rfl

/-- Each instruction is selected with its own references, so that the references of a body come in the
order of its instructions. -/
theorem selects_instr {i : Code.Instr} (h : (site.instr i).run p = .ok (code, p')) :
    CodeSelects site.scope [i] code := by
  cases i with
  | assign dest ty rhs => exact selects_assign h
  | call kind receiver method arguments returnType =>
      obtain ⟨callCode, pushes, hCall, rfl⟩ := callStatement_run.mp h
      have hPop : Stack.members (callCode ++ [.pop]) = Stack.members callCode := by
        rw [members_append, members_cons_other rfl, members_nil, List.append_nil]
      have hSelects := selects_call hCall
      cases pushes with
      | true => rwa [CodeSelects, if_pos rfl, hPop]
      | false => exact hSelects
  | putField object field ty value =>
      obtain ⟨_, _, _, hField, hObject, hValue, rfl, -⟩ := instr_putField_run.mp h
      rw [CodeSelects, members_append, members_append, members_load hObject, members_load hValue]
      exact .cons (.putField value hField) .nil
  | ret value ty =>
      obtain ⟨hRet, -⟩ := instr_ret_run.mp h
      cases value with
      | none =>
          rw [ret_none_ok.mp hRet]
          exact .nil
      | some o =>
          obtain ⟨_, _, hLoad, _, rfl⟩ := ret_some_ok.mp hRet
          rw [CodeSelects, members_append, members_load hLoad]
          exact .nil
  | branch condition target =>
      obtain ⟨hBranch, -⟩ := instr_branch_run.mp h
      rw [CodeSelects, members_branch hBranch]
      exact .nil
  | goto target =>
      obtain ⟨rfl, -⟩ := instr_goto_run.mp h
      exact .nil
  | label l =>
      obtain ⟨rfl, -⟩ := instr_label_run.mp h
      exact .nil
  | operand | binary | not | getField =>
      obtain ⟨_, hValue, rfl⟩ := (instr_mere_run rfl).mp h
      rw [CodeSelects, members_append, members_cons_other rfl, members_nil, List.append_nil]
      exact selects_value hValue

end Site

/-- Stack code refers to the members that its source refers to, one for one and in order, by induction on
the instructions. -/
theorem selects_codeOf {site : Site} {p p' : Progress} {source : List Code.Instr}
    {code : List Stack.Instr} (h : (codeOf site source).run p = .ok (code, p')) :
    CodeSelects site.scope source code := by
  induction source generalizing p code with
  | nil =>
      obtain ⟨rfl, _⟩ := codeOf_nil_run.mp h
      exact .nil
  | cons i rest ih =>
      obtain ⟨_, _, _, hFirst, hRest, rfl⟩ := codeOf_cons_run.mp h
      have hHead : Code.members (i :: rest) = Code.members [i] ++ Code.members rest :=
        Code.members_append [i] rest
      rw [CodeSelects, hHead, members_append]
      exact List.rel_append (Site.selects_instr hFirst) (ih hRest)

/-- The stack instruction that makes a reference of the program, by way of the instruction to which it is
lowered. -/
def Emits (classScope : ClassScope) (scope : Lowering.Scope) (r : Source.Reference)
    (i : Stack.Instr) : Prop :=
  ∃ source, Lowering.Refers scope r source ∧ Selects classScope source i

section Emits

variable {classScope : ClassScope} {scope : Lowering.Scope} {i : Stack.Instr}

/-- References of the source that are kept by lowering and by selection are kept by both in turn. -/
theorem emits_of_selects {references : List Source.Reference} {source : List Code.Instr}
    {code : List Stack.Instr} (hRefers : Lowering.CodeRefers scope references source)
    (hSelects : CodeSelects classScope source code) :
    List.Forall₂ (Emits classScope scope) references (Stack.members code) := by
  unfold Lowering.CodeRefers at hRefers
  unfold CodeSelects at hSelects
  generalize Code.members source = middle at hRefers hSelects
  generalize Stack.members code = last at hSelects
  induction hRefers generalizing last with
  | nil =>
      cases hSelects
      exact .nil
  | cons hHead _ ih =>
      cases hSelects with
      | cons hFirst hRest => exact .cons ⟨_, hHead, hFirst⟩ (ih _ hRest)

theorem emits_new {className : String} (h : Emits classScope scope (.new className) i) :
    i = .new (qualify classScope.unit className) := by
  obtain ⟨_, hRefers, hSelects⟩ := h
  cases hRefers
  cases hSelects with
  | new _ _ _ hClass => rw [← Except.ok.inj hClass]

/-- The constructor is that of the class that imports give to the name, without parameters. -/
theorem emits_construct {className : String} (h : Emits classScope scope (.construct className) i) :
    i = .invoke .special ⟨qualify classScope.unit className, "<init>", [], "V"⟩ := by
  obtain ⟨_, hRefers, hSelects⟩ := h
  cases hRefers
  cases hSelects with
  | invokeSpecial name arguments ty _ hClass =>
      rw [← Except.ok.inj hClass, methodRef_nil]
      rfl

/-- A name that is read from a field is declared as one, and the field is one of the class itself. -/
theorem emits_read {name : String} (h : Emits classScope scope (.read name) i) :
    ∃ ty, Source.meaning scope name = .field ty ∧
      i = .getField ⟨classScope.unit.name, name, classScope.descriptor (.ofSource ty)⟩ := by
  obtain ⟨_, hRefers, hSelects⟩ := h
  cases hRefers with
  | read hMeaning =>
      cases hSelects with
      | getField hField =>
          obtain ⟨_, hClass, rfl⟩ := ClassScope.fieldRef_ok.mp hField
          rw [← Except.ok.inj hClass]
          exact ⟨_, hMeaning, rfl⟩

/-- A name that is written to a field is declared as one, and the field is one of the class itself. -/
theorem emits_write {name : String} (h : Emits classScope scope (.write name) i) :
    ∃ ty, Source.meaning scope name = .field ty ∧
      i = .putField ⟨classScope.unit.name, name, classScope.descriptor (.ofSource ty)⟩ := by
  obtain ⟨_, hRefers, hSelects⟩ := h
  cases hRefers with
  | write value hMeaning =>
      cases hSelects with
      | putField _ hField =>
          obtain ⟨_, hClass, rfl⟩ := ClassScope.fieldRef_ok.mp hField
          rw [← Except.ok.inj hClass]
          exact ⟨_, hMeaning, rfl⟩

/-- A call goes to a static method of the class that its receiver names, or else to a method of the
object that its receiver is. -/
theorem emits_call {receiver : Source.Expr} {method : String} {arguments : List Source.Expr}
    (h : Emits classScope scope (.call receiver method arguments) i) :
    ∃ values : List Operand, ∃ ty,
      values.length = Source.passedArguments scope receiver method arguments ∧
      ((∃ className, Source.receiverClass? scope receiver = some className ∧
          i = .invoke .static
            (classScope.methodRef (qualify classScope.unit className) method values ty)) ∨
        ∃ target className, Source.receiverClass? scope receiver = none ∧
          Lowering.Carries scope receiver target ∧ classScope.classOf target = .ok className ∧
          i = .invoke .virtual (classScope.methodRef className method values ty)) := by
  obtain ⟨_, hRefers, hSelects⟩ := h
  cases hRefers with
  | callStatic _ ty hFound hValues =>
      cases hSelects with
      | invokeStatic _ _ _ hClass =>
          rw [← Except.ok.inj hClass]
          exact ⟨_, ty, hValues, .inl ⟨_, hFound, rfl⟩⟩
  | callVirtual _ ty hObject hTarget hValues =>
      cases hSelects with
      | invokeVirtual _ _ _ hClass =>
          exact ⟨_, ty, hValues, .inr ⟨_, _, hObject, hTarget, hClass, rfl⟩⟩

/-- Accesses to fields are reads and writes of fields of the class itself. No field of another class can
be named in a program. -/
theorem emits_access {r : Source.Reference} (h : Emits classScope scope r i) {ref : Stack.FieldRef}
    (hAccess : i = .getField ref ∨ i = .putField ref) :
    ∃ name ty, Source.meaning scope name = .field ty ∧
      ref = ⟨classScope.unit.name, name, classScope.descriptor (.ofSource ty)⟩ := by
  cases r with
  | read name =>
      obtain ⟨ty, hMeaning, rfl⟩ := emits_read h
      rcases hAccess with hSame | hSame
      · exact ⟨name, ty, hMeaning, (Stack.Instr.getField.inj hSame).symm⟩
      · cases hSame
  | write name =>
      obtain ⟨ty, hMeaning, rfl⟩ := emits_write h
      rcases hAccess with hSame | hSame
      · cases hSame
      · exact ⟨name, ty, hMeaning, (Stack.Instr.putField.inj hSame).symm⟩
  | new className =>
      obtain rfl := emits_new h
      rcases hAccess with hSame | hSame <;> cases hSame
  | construct className =>
      obtain rfl := emits_construct h
      rcases hAccess with hSame | hSame <;> cases hSame
  | call receiver method arguments =>
      obtain ⟨_, _, -, ⟨_, -, rfl⟩ | ⟨_, _, -, -, -, rfl⟩⟩ := emits_call h <;>
        rcases hAccess with hSame | hSame <;> cases hSame

/-- The class of the object that an expression of a declared class type is. Strings alone have a name
of their own. -/
theorem classOf_carries {e : Source.Expr} {o : Operand} {n className : String}
    (hName : scope.symbols.className = classScope.unit.name) (hInt : n ≠ "int")
    (hBoolean : n ≠ "boolean") (hVoid : n ≠ "void") (hTy : e.declaredTy scope = .object n)
    (hCarries : Lowering.Carries scope e o) (hClass : classScope.classOf o = .ok className) :
    className = qualify classScope.unit n ∨ (n = "String" ∧ className = stringClass) := by
  cases hCarries with
  | self hBare =>
      rw [Source.Expr.declaredTy, hBare, hName] at hTy
      obtain rfl : classScope.unit.name = n := congrArg Source.Ty.name hTy
      rw [← Except.ok.inj hClass, qualify, if_pos rfl]
      exact .inl rfl
  | object hBare name =>
      rw [Source.Expr.declaredTy, hBare] at hTy
      obtain rfl := congrArg Source.Ty.name hTy
      exact .inl (Except.ok.inj hClass).symm
  | declared hDatum hOperand =>
      have hOfSource : o.ty = if n = "String" then .string else .object n := by
        rw [hOperand, hTy]
        simp [Ty.ofSource, Source.Ty.object, Ty.ofName, hInt, hBoolean, hVoid]
      rcases ClassScope.classOf_ok.mp hClass with ⟨_, rfl, _⟩ | ⟨name, _, hObject, rfl⟩ |
        ⟨_, hString, rfl⟩
      · cases hDatum
      · split at hOfSource
        · cases hObject.symm.trans hOfSource
        · obtain rfl := Ty.object.inj (hObject.symm.trans hOfSource)
          exact .inl rfl
      · split at hOfSource
        · rename_i hn
          exact .inr ⟨hn, rfl⟩
        · cases hString.symm.trans hOfSource
  | number hDatum hOperand =>
      rcases ClassScope.classOf_ok.mp hClass with ⟨_, rfl, _⟩ | ⟨_, _, hObject, _⟩ | ⟨_, hString, _⟩
      · cases hDatum
      · rcases hOperand with hTy | hTy <;> cases hObject.symm.trans hTy
      · rcases hOperand with hTy | hTy <;> cases hString.symm.trans hTy

end Emits

theorem blocks_length {program : Source.Program} {withConstructor : Bool} {unit : Code.ClassUnit}
    {superName : String} {blocks : List Stack.Block}
    (hUnit : Lowering.ofProgram withConstructor program = .ok unit)
    (hBlocks : methodBlocks (.ofUnit superName unit) 0 unit.methods = .ok blocks) :
    blocks.length = program.decl.methods.length := by
  obtain ⟨_, _, hMethods, rfl⟩ := Lowering.ofProgram_ok.mp hUnit
  rw [methodBlocks_length hBlocks, Lowering.methods_length hMethods]

/-- Whatever stands on the right of a relation between lists has something on the left to which it
belongs. -/
theorem exists_left_of_forall₂ {α β : Type} {R : α → β → Prop} {as : List α} {bs : List β}
    (h : List.Forall₂ R as bs) {b : β} (hb : b ∈ bs) : ∃ a ∈ as, R a b := by
  induction h with
  | nil => cases hb
  | cons hHead _ ih =>
      rcases List.mem_cons.mp hb with rfl | hRest
      · exact ⟨_, List.mem_cons_self, hHead⟩
      · obtain ⟨a, ha, hR⟩ := ih hRest
        exact ⟨a, List.mem_cons_of_mem _ ha, hR⟩

/-- Each method of a class that compiles, in its place: its code makes the references of its source,
in their order, and no others. -/
theorem emits_method {program : Source.Program} {withConstructor : Bool} {unit : Code.ClassUnit}
    {superName : String} {blocks : List Stack.Block} {k : Nat} {m : Source.MethodDecl}
    (hUnit : Lowering.ofProgram withConstructor program = .ok unit)
    (hBlocks : methodBlocks (.ofUnit superName unit) 0 unit.methods = .ok blocks)
    (hMethod : program.decl.methods[k]? = some m) :
    ∃ block lowered, blocks[k]? = some block ∧ unit.methods[k]? = some lowered ∧
      lowered.name = m.name ∧ lowered.parameters = m.parameters.map Lowering.variableOf ∧
      lowered.returnType = .ofSource m.returnType ∧
      block.header = methodHeader (.ofUnit superName unit) lowered ∧
      List.Forall₂ (Emits (.ofUnit superName unit) (m.namedScope program)) (m.references program)
        (Stack.members block.body) := by
  obtain ⟨_, _, hMethods, rfl⟩ := Lowering.ofProgram_ok.mp hUnit
  obtain ⟨lowered, _, _, hLowered, hLower⟩ := Lowering.methods_getElem? hMethods hMethod
  obtain ⟨block, _, _, hPlace, hBlock⟩ := methodBlocks_getElem? hBlocks hLowered
  obtain ⟨_, _, _, _, _, hBody, _, rfl, _⟩ := methodBlock_ok.mp hBlock
  obtain ⟨hName, _, hParameters, hReturn⟩ := Lowering.method_head hLower
  exact ⟨_, lowered, hPlace, hLowered, hName, hParameters, hReturn, rfl,
    emits_of_selects (Lowering.refers_method hLower) (selects_codeOf hBody)⟩

end MiniJava.Assembly
