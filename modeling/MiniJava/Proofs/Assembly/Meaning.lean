import MiniJava.Proofs.Assembly.Totality
import MiniJava.Proofs.Code.Shapes
import MiniJava.Proofs.Stack.Meaning

/-!
Stack code does what the three-address code does that it was selected for. Between instructions every
variable has the same value in its slot, and there is nothing on the stack but an object that has just
been allocated.
-/

namespace MiniJava.Assembly

open Code (CallKind Complete Condition Context Label Method Operand Shaped Ty)
open Lowering (allocation construction)
open Semantics (Act Comes Ends Next Reaches Returns Setting Shape Stop Value World)
open Semantics.Stack (Runs Store answered)

section Shapes

variable {ty : Ty}

/-- A kind is coarser than a type, so a value of the type is one of the kind. -/
theorem holds_ofKind {kind : Stack.Kind} (hKind : kindOf ty = .ok kind) {v : Value}
    (hv : (Shape.ofType ty).holds v = true) : (Shape.ofKind kind).holds v = true := by
  cases ty with
  | boolean =>
      cases hKind
      cases v with
      | int n => rfl
      | ref address => cases hv
  | void => cases hKind
  | _ =>
      cases hKind
      exact hv

/-- Items keep the shape of their type, as their kind tells apart integers, booleans and references. -/
theorem ofElement_eq {kind : Stack.ElementKind} (hKind : elementKindOf ty = .ok kind) :
    Shape.ofElement kind = Shape.ofType ty := by
  cases ty <;> cases hKind <;> rfl

variable (scope : ClassScope)

/-- What a descriptor says about a value is what the type said that it was spelt for. -/
theorem ofDescriptor_descriptor (ty : Ty) :
    Shape.ofDescriptor (scope.descriptor ty) = Shape.ofType ty := by
  have hInt : scope.descriptor ty = "I" ↔ ty = .int32 := scope.descriptor_eq_iff (.inl rfl)
  have hBoolean : scope.descriptor ty = "Z" ↔ ty = .boolean := scope.descriptor_eq_iff (.inr (.inl rfl))
  simp only [Shape.ofDescriptor, hInt, hBoolean]
  cases ty <;> rfl

/-- A method has a result, and one of the same shape, exactly if the type that the call gives it is not
void. -/
theorem result?_methodRef (className name : String) (arguments : List Operand) (result : Ty) :
    Semantics.Stack.result? (scope.methodRef className name arguments result) =
      Shape.result? result := by
  rw [Semantics.Stack.result?, scope.returnsValue_methodRef, Shape.result?]
  cases result.isVoid with
  | true => rfl
  | false => exact congrArg some (ofDescriptor_descriptor scope result)

end Shapes

/-- What holds between instructions. Every variable has in its slot the value that it has, a value of its
type, and slot 0 holds the object of an instance method. -/
structure Mirrors (site : Site) (c : Context) (setting : Setting) (env : Semantics.Code.Env)
    (slots : Nat → Option Value) : Prop extends Shaped c setting env where
  receiver : c.isStatic = false → slots 0 = some setting.self
  slot : ∀ {name slot}, site.slot name = .ok slot → slots slot.toNat = env name

section Selection

variable {site : Site} {c : Context} {setting : Setting} {env : Semantics.Code.Env}
  {slots : Nat → Option Value} {body : List Stack.Instr} {stack : List Value} {p p' : Progress}
  {code : List Stack.Instr}

section Values

variable (hMirrors : Mirrors site c setting env slots)

include hMirrors

/-- The code that loads an operand finds the value that the operand has, and fails as the operand does
where an item of an array is asked for. -/
theorem runs_load {o : Operand} (ho : o.Typed c) (h : site.load o = .ok code) :
    Runs setting body code ⟨stack, slots⟩ (Semantics.Code.operand setting env o)
      fun v => ⟨v :: stack, slots⟩ := by
  induction ho generalizing code stack with
  | int n =>
      rw [Site.load_literal_ok.mp h]
      exact .pushInt n
  | bool b =>
      rw [Site.load_literal_ok.mp h]
      exact .pushInt _
  | @«variable» name ty hName hValue =>
      obtain ⟨kind, slot, hKind, hSlot, rfl⟩ := Site.load_variable_ok.mp h
      have hSame := hMirrors.slot hSlot
      unfold Semantics.Code.operand
      cases hFound : env name with
      | none => exact .throw fun _ => Semantics.Stack.step_loadSlot_none (hSame.trans hFound)
      | some v =>
          have hKindOf := holds_ofKind hKind (hMirrors.named hName hFound)
          refine .after (fun _ => Semantics.Stack.step_loadSlot (hSame.trans hFound) hKindOf) ?_
          exact .nil v rfl
  | @element array place ty hArray hElementary hPlace hInt ih =>
      obtain ⟨kind, slot, placeCode, hKind, hSlot, hPlaceCode, rfl⟩ := Site.load_element_ok.mp h
      have hSame := hMirrors.slot hSlot
      unfold Semantics.Code.operand
      cases hFound : env array with
      | none => exact .throw fun _ => Semantics.Stack.step_loadSlot_none (hSame.trans hFound)
      | some base =>
          have hReference := hMirrors.named hArray hFound
          refine .after (fun _ => Semantics.Stack.step_loadSlot (hSame.trans hFound) hReference) ?_
          refine (ih hPlaceCode).append fun v _ => .ofAct rfl ?_
          rw [← ofElement_eq hKind]
          rfl
  | self hInstance =>
      obtain ⟨-, rfl⟩ := Site.load_self_ok.mp h
      have hSelf := hMirrors.receiver hInstance
      refine .after (fun _ => Semantics.Stack.step_loadSlot hSelf (hMirrors.self hInstance)) ?_
      exact .nil setting.self rfl

theorem runs_loadAll {os : List Operand} (hos : ∀ o ∈ os, o.Typed c)
    (h : site.loadAll os = .ok code) :
    Runs setting body code ⟨stack, slots⟩ (Semantics.Code.operands setting env os)
      fun vs => ⟨vs.reverse ++ stack, slots⟩ := by
  induction os generalizing code stack with
  | nil =>
      rw [Site.loadAll_nil_ok.mp h]
      exact .nil [] rfl
  | cons o rest ih =>
      obtain ⟨first, others, hFirst, hOthers, rfl⟩ := Site.loadAll_cons_ok.mp h
      obtain ⟨ho, hRest⟩ := List.forall_mem_cons.mp hos
      refine (runs_load hMirrors ho hFirst).append fun v _ => .map ?_
      have hCode : Runs setting body others ⟨v :: stack, slots⟩
          (Semantics.Code.operands setting env rest) fun vs => ⟨vs.reverse ++ v :: stack, slots⟩ :=
        ih hRest hOthers
      simpa only [List.reverse_cons, List.append_assoc, List.singleton_append] using hCode

/-- The code of an invocation, after the code of its receiver. -/
theorem runs_invocation {kind : Stack.InvokeKind} {className name : String}
    {receiverCode : List Stack.Instr} {arguments : List Operand} {returnType : Ty} {pushes : Bool}
    {α : Type} {x : Act α} {below : α → List Value} {f : α → List Value → Act Value}
    (hArguments : ∀ o ∈ arguments, o.Typed c)
    (h : site.invocation kind className name receiverCode arguments returnType = .ok (code, pushes))
    (hReceiver : Runs setting body receiverCode ⟨stack, slots⟩ x fun a => ⟨below a, slots⟩)
    (hInvoke : ∀ method a vs, method = site.scope.methodRef className name arguments returnType →
      vs.length = method.parameters.length →
      Semantics.Stack.invoke setting kind method ⟨vs.reverse ++ below a, slots⟩ =
        f a vs >>= fun v => pure ⟨answered method.returnsValue v stack, slots⟩) :
    Runs setting body code ⟨stack, slots⟩
      (x >>= fun a => Semantics.Code.operands setting env arguments >>= f a)
      fun v => ⟨answered pushes v stack, slots⟩ := by
  obtain ⟨argumentCode, hLoad, rfl, rfl⟩ := Site.invocation_ok.mp h
  rw [List.append_assoc]
  refine hReceiver.append fun a _ => (runs_loadAll hMirrors hArguments hLoad).append fun vs hvs => ?_
  refine .ofAct rfl (hInvoke _ a vs rfl ?_)
  rw [Code.length_of_returns hvs, methodRef_parameters_length]

variable (hNames : setting.className = qualify site.scope.unit)

include hNames

/-- The code of a call does what the call does: the same question to the host, the same writes, and the
answer on top of the stack if there is one. -/
theorem runs_call {i : Code.Instr} {pushes : Bool} (hYields : i.Yields c)
    (h : (site.call i).run p = .ok ((code, pushes), p')) :
    Runs setting body code ⟨stack, slots⟩ (Semantics.Code.value setting env i)
      fun v => ⟨answered pushes v stack, slots⟩ := by
  cases hYields with
  | newArray hSize hInt =>
      obtain ⟨hNew, rfl, -⟩ := (Site.call_newArray_run rfl).mp h
      obtain ⟨-, _, sizeCode, ⟨⟩, hLoad, rfl⟩ := Site.newArray_ok.mp hNew
      exact (runs_load hMirrors hSize hLoad).append fun v _ => .ofAct rfl rfl
  | arrayLength ho hArray =>
      obtain ⟨receiverCode, hLoad, rfl, rfl, -⟩ := Site.call_arrayLength_run.mp h
      exact (runs_load hMirrors ho hLoad).append fun v _ => .ofAct rfl rfl
  | @callStatic className method arguments ty hPasses =>
      obtain ⟨_, _, ⟨⟩, ⟨⟩, hCode, -⟩ := Site.call_invokeStatic_run.mp h
      have hValue : Semantics.Code.value setting env
          (.call .invokeStatic (.classRef className) (some method) arguments ty) =
            pure () >>= fun _ => Semantics.Code.operands setting env arguments >>= fun vs =>
              Semantics.callStatic setting className method vs (Shape.result? ty) := rfl
      have hNothing : Runs setting body [] ⟨stack, slots⟩ (pure ()) fun _ => ⟨stack, slots⟩ := .nil () rfl
      rw [hValue]
      refine runs_invocation hMirrors hPasses.typed hCode hNothing ?_
      rintro _ _ vs rfl hLength
      rw [Semantics.Stack.invoke_static hLength, result?_methodRef, Semantics.callStatic, hNames]
      rfl
  | @callVirtual target method arguments ty hTarget hObject hPasses =>
      obtain ⟨className, _, receiverCode, hClass, ⟨⟩, hLoad, hCode, -⟩ :=
        Site.call_invokeVirtual_run.mp h
      refine runs_invocation hMirrors hPasses.typed hCode (runs_load hMirrors hTarget hLoad) ?_
      rintro _ receiver vs rfl hLength
      rw [Semantics.Stack.invoke_virtual hLength, result?_methodRef]
      rfl
  | _ => exact (select_throw_ok h).elim

omit hMirrors hNames in
/-- The instruction of an operator computes the value of the operator, and fails for a division by zero
just as it does. -/
theorem operate_arithmetic {op : Code.BinaryOp} {arithmetic : Stack.Arithmetic}
    (hOp : Site.arithmetic? op = some arithmetic) (a b : Int32) :
    Semantics.Code.operate op a b =
      Semantics.Stack.operate arithmetic a b >>= fun n => pure (.int n) := by
  cases op <;> cases hOp <;> rfl

omit hMirrors hNames in
/-- The comparison that selection chooses holds of two integers exactly if the operator gives true for
them. -/
theorem operate_comparison {op : Code.BinaryOp} {comparison : Stack.Comparison}
    (hOp : comparisonOf op = .ok comparison) (a b : Int32) :
    Semantics.Code.operate op a b = pure (.ofBool (Semantics.Stack.compare comparison a b)) := by
  cases op <;> cases hOp <;> rfl

variable (hNodup : (Stack.labels body).Nodup)

include hNodup

omit hNames in
/-- Operators with an instruction of their own take one step behind their operands; comparisons jump, and
meet again with the truth value on the stack. -/
theorem runs_binary {op : Code.BinaryOp} {left right : Operand} (hLeft : left.Typed c)
    (hRight : right.Typed c) (hLeftInt : left.ty = .int32) (hRightInt : right.ty = .int32)
    (h : (site.binary op left right).run p = .ok (code, p')) :
    Runs setting body code ⟨stack, slots⟩ (Semantics.Code.binary setting env op left right)
      fun v => ⟨v :: stack, slots⟩ := by
  obtain ⟨leftCode, rightCode, hLeftCode, hRightCode, hCode⟩ := Site.binary_run.mp h
  have hOperands {last : List Stack.Instr} (hLast : ∀ a b : Int32,
      Runs setting body last ⟨.int b :: .int a :: stack, slots⟩ (Semantics.Code.operate op a b)
        fun v => ⟨v :: stack, slots⟩) :
      Runs setting body (leftCode ++ (rightCode ++ last)) ⟨stack, slots⟩
        (Semantics.Code.binary setting env op left right) fun v => ⟨v :: stack, slots⟩ := by
    refine (runs_load hMirrors hLeft hLeftCode).append fun _ hFirst => ?_
    refine (runs_load hMirrors hRight hRightCode).append fun _ hSecond => ?_
    obtain ⟨a, rfl⟩ := hMirrors.int hLeft hLeftInt hFirst
    obtain ⟨b, rfl⟩ := hMirrors.int hRight hRightInt hSecond
    exact (hLast a b).of_eq rfl
  rcases hCode with ⟨arithmetic, hOp, -, rfl⟩ | ⟨comparison, hOp, -, rfl⟩
  · rw [List.append_assoc]
    refine hOperands fun a b => .ofAct rfl ?_
    rw [operate_arithmetic hOp, bind_assoc]
    rfl
  · rw [List.append_assoc]
    refine hOperands fun a b => ?_
    rw [operate_comparison hOp]
    intro rest w hSuffix
    obtain ⟨n, hReach⟩ := Semantics.Stack.reaches_comparisonCode hNodup comparison hSuffix a b
    exact .inl ⟨n, _, w, hReach, _, rfl, rfl⟩

/-- Whatever form the value has, the code for it ends with the value on top of the stack as it was. -/
theorem runs_value {i : Code.Instr} (hYields : i.Yields c)
    (h : (site.value i).run p = .ok (code, p')) :
    Runs setting body code ⟨stack, slots⟩ (Semantics.Code.value setting env i)
      fun v => ⟨v :: stack, slots⟩ := by
  cases i with
  | operand o =>
      cases hYields with
      | operand ho => exact runs_load hMirrors ho (Site.value_operand_run.mp h).1
  | binary op left right ty =>
      rw [Site.value_binary] at h
      cases hYields with
      | arithmetic _ hLeft hRight hLeftInt hRightInt | comparison _ hLeft hRight hLeftInt hRightInt =>
          exact runs_binary hMirrors hNodup hLeft hRight hLeftInt hRightInt h
  | not o ty =>
      obtain ⟨operandCode, hLoad, rfl, -⟩ := Site.value_not_run.mp h
      cases hYields with
      | not ho hBoolean =>
          refine (runs_load hMirrors ho hLoad).append fun v hv => ?_
          have hShape := hMirrors.operand ho hv
          rw [hBoolean] at hShape
          refine .after (fun _ => Semantics.Stack.step_pushInt 1) (.ofAct rfl ?_)
          exact Semantics.Stack.act_negate hShape
  | getField object field ty =>
      obtain ⟨fieldRef, objectCode, hField, hLoad, rfl, -⟩ := Site.value_getField_run.mp h
      obtain ⟨className, -, rfl⟩ := ClassScope.fieldRef_ok.mp hField
      cases hYields with
      | getField hInstance hValue =>
          refine (runs_load hMirrors (.self hInstance) hLoad).append fun v _ => .ofAct rfl ?_
          rw [← ofDescriptor_descriptor site.scope ty]
          rfl
  | call kind receiver method arguments returnType =>
      rw [Site.value_call, Site.callValue_run] at h
      exact runs_call hMirrors hNames hYields h
  | _ => cases hYields

omit hNames hNodup in
/-- A variable that gets a value has it in its slot. The slots of all other variables are other ones. -/
theorem Mirrors.store (hLays : Frame.Lays site.method.receiverSlots (Frame.order site.method) site.frame)
    (hStatic : site.method.isStatic = c.isStatic) {name : String} {slot : UInt16} {ty : Ty} {v : Value}
    (hSlot : site.slot name = .ok slot) (hName : c.typeOf name = some ty)
    (hv : (Shape.ofType ty).holds v = true) :
    Mirrors site c setting (Function.update env name (some v))
      (Function.update slots slot.toNat (some v)) where
  toShaped := hMirrors.toShaped.update hName hv
  receiver hInstance := by
    obtain ⟨place, -, hNumber, -⟩ := hLays.mem_of_slot (Site.slot_ok.mp hSlot)
    rw [Method.receiverSlots, hStatic, hInstance, if_neg Bool.false_ne_true] at hNumber
    rw [Function.update_of_ne (by omega)]
    exact hMirrors.receiver hInstance
  slot {other otherSlot} hOther := by
    by_cases hSame : other = name
    · subst hSame
      obtain rfl := Except.ok.inj (hSlot.symm.trans hOther)
      rw [Function.update_self, Function.update_self]
    · have hApart : otherSlot.toNat ≠ slot.toNat := by
        intro hEq
        obtain rfl := UInt16.toNat_inj.mp hEq
        exact hSame (hLays.injective (Site.slot_ok.mp hOther) (Site.slot_ok.mp hSlot))
      rw [Function.update_of_ne hSame, Function.update_of_ne hApart]
      exact hMirrors.slot hOther

end Values

/-- The code goes along with an action on the variables, from an empty stack to an empty stack, and
takes at least one step. -/
def Carries (site : Site) (c : Context) (setting : Setting) (body code : List Stack.Instr)
    (slots : Nat → Option Value) (x : Act Semantics.Code.Env) : Prop :=
  code ≠ [] ∧ ∃ after : Semantics.Code.Env → Nat → Option Value,
    Runs setting body code ⟨[], slots⟩ x (fun env' => ⟨[], after env'⟩) ∧
      ∀ env', Returns x env' → Mirrors site c setting env' (after env')

section Instructions

variable (hMirrors : Mirrors site c setting env slots)
  (hNames : setting.className = qualify site.scope.unit) (hNodup : (Stack.labels body).Nodup)

include hMirrors

/-- An instruction that leaves the variables as they are, whose code leaves the slots as they are. -/
theorem carries_of_runs {α : Type} {y : Act α} (hNonempty : code ≠ [])
    (h : Runs setting body code ⟨[], slots⟩ y fun _ => ⟨[], slots⟩) :
    Carries site c setting body code slots (y >>= fun _ => pure env) := by
  refine ⟨hNonempty, fun _ => slots, ?_, ?_⟩
  · exact .map h
  · intro env' hReturns
    obtain ⟨_, -, rfl⟩ := hReturns.of_map
    exact hMirrors

include hNames hNodup

/-- Assigning a variable carries over: the value is computed on the stack and stored in the slot of the
variable, which is the only slot that changes. -/
theorem carries_assign
    (hLays : Frame.Lays site.method.receiverSlots (Frame.order site.method) site.frame)
    (hStatic : site.method.isStatic = c.isStatic) {name : String} {ty : Ty} {rhs : Code.Instr}
    (hName : c.typeOf name = some ty) (hRhs : rhs.Yields c) (hValue : rhs.valueType.isVoid = false)
    (hFits : rhs.valueType.Fits ty) (h : (site.assign (.variable name ty) rhs).run p = .ok (code, p')) :
    Carries site c setting body code slots
      (Semantics.Code.assign setting env (.variable name ty) rhs) := by
  obtain ⟨slot, valueCode, kind, hSlot, hCode, hKind, rfl⟩ :=
    (Site.assign_variable_run (Site.allocated?_of_yields hRhs)).mp h
  have hShape {v : Value} (hv : Returns (Semantics.Code.value setting env rhs) v) :
      (Shape.ofType ty).holds v = true := hFits.shape_eq ▸ hMirrors.value hRhs hValue hv
  refine ⟨by simp, fun env' => Function.update slots slot.toNat (env' name), ?_, ?_⟩
  · refine (runs_value hMirrors hNames hNodup hRhs hCode).append fun v hv => ?_
    refine .after (fun _ => Semantics.Stack.step_storeSlot (holds_ofKind hKind (hShape hv))) ?_
    exact .nil _ (by dsimp only; rw [Function.update_self])
  · intro env' hReturns
    obtain ⟨v, hv, rfl⟩ := hReturns.of_map
    dsimp only
    rw [Function.update_self]
    exact hMirrors.store hLays hStatic hSlot hName (hShape hv)

/-- Storing an item carries over, with the array and the place below the value. Nothing changes in the
slots, for the array is on the heap. -/
theorem carries_store {array : String} {place : Operand} {ty : Ty} {rhs : Code.Instr}
    (hArray : c.typeOf array = some (.array ty)) (hPlace : place.Typed c) (hRhs : rhs.Yields c)
    (h : (site.assign (.element array place ty) rhs).run p = .ok (code, p')) :
    Carries site c setting body code slots
      (Semantics.Code.assign setting env (.element array place ty) rhs) := by
  obtain ⟨kind, slot, placeCode, valueCode, hKind, hSlot, hPlaceCode, hCode, rfl⟩ :=
    Site.assign_element_run.mp h
  have hSame := hMirrors.slot hSlot
  unfold Semantics.Code.assign
  dsimp only
  cases hFound : env array with
  | none =>
      refine ⟨by simp, fun _ => slots, ?_, fun _ hReturns => (Returns.not_throw hReturns).elim⟩
      exact .throw fun _ => Semantics.Stack.step_loadSlot_none (hSame.trans hFound)
  | some base =>
      have hReference := hMirrors.named hArray hFound
      have hRuns : Runs setting body
          (Stack.loadSlot .reference slot :: placeCode ++ valueCode ++ [.arrayStore kind]) ⟨[], slots⟩
          (Semantics.Code.operand setting env place >>= fun place =>
            Semantics.Code.value setting env rhs >>= fun v =>
              Semantics.writeItem base place (.ofType ty) v) fun _ => ⟨[], slots⟩ := by
        rw [List.cons_append, List.cons_append, List.append_assoc]
        refine .after (fun _ => Semantics.Stack.step_loadSlot (hSame.trans hFound) hReference) ?_
        refine (runs_load hMirrors hPlace hPlaceCode).append fun _ _ => ?_
        refine (runs_value hMirrors hNames hNodup hRhs hCode).append fun v _ => .ofAct rfl ?_
        rw [← ofElement_eq hKind]
        rfl
      have hCarries := carries_of_runs hMirrors (by simp) hRuns
      simpa only [bind_assoc] using hCarries

omit hNames hNodup in
/-- Writing a field carries over in the same way, with the object below the value. -/
theorem carries_putField {field : String} {ty : Ty} {o : Operand} (hInstance : c.isStatic = false)
    (ho : o.Typed c)
    (h : (site.instr (.putField (.self (.object c.className)) field ty o)).run p = .ok (code, p')) :
    Carries site c setting body code slots (do
      let object ← Semantics.Code.operand setting env (.self (.object c.className))
      let v ← Semantics.Code.operand setting env o
      Semantics.writeField object field (.ofType ty) v
      return env) := by
  obtain ⟨fieldRef, objectCode, valueCode, hField, hObject, hValue, rfl, -⟩ :=
    Site.instr_putField_run.mp h
  obtain ⟨className, -, rfl⟩ := ClassScope.fieldRef_ok.mp hField
  have hRuns : Runs setting body
      (objectCode ++ valueCode ++ [.putField ⟨className, field, site.scope.descriptor ty⟩]) ⟨[], slots⟩
      (Semantics.Code.operand setting env (.self (.object c.className)) >>= fun object =>
        Semantics.Code.operand setting env o >>= fun v =>
          Semantics.writeField object field (.ofType ty) v) fun _ => ⟨[], slots⟩ := by
    rw [List.append_assoc]
    refine (runs_load hMirrors (.self hInstance) hObject).append fun _ _ => ?_
    refine (runs_load hMirrors ho hValue).append fun v _ => .ofAct rfl ?_
    rw [← ofDescriptor_descriptor site.scope ty]
    rfl
  have hCarries := carries_of_runs hMirrors (by simp) hRuns
  simpa only [bind_assoc] using hCarries

omit hNames hNodup hMirrors in
/-- The code of a call is never empty, and so the machine takes a step for each call. -/
theorem call_ne_nil {i : Code.Instr} {pushes : Bool} (hYields : i.Yields c)
    (h : (site.call i).run p = .ok ((code, pushes), p')) : code ≠ [] := by
  cases hYields with
  | newArray hSize hInt =>
      obtain ⟨hNew, -, -⟩ := (Site.call_newArray_run rfl).mp h
      obtain ⟨-, _, _, _, _, rfl⟩ := Site.newArray_ok.mp hNew
      simp
  | arrayLength ho hArray =>
      obtain ⟨_, _, rfl, -, -⟩ := Site.call_arrayLength_run.mp h
      simp
  | callStatic hPasses =>
      obtain ⟨_, _, _, _, hCode, -⟩ := Site.call_invokeStatic_run.mp h
      obtain ⟨_, _, rfl, -⟩ := Site.invocation_ok.mp hCode
      simp
  | callVirtual hTarget hObject hPasses =>
      obtain ⟨_, _, _, _, _, _, hCode, -⟩ := Site.call_invokeVirtual_run.mp h
      obtain ⟨_, _, rfl, -⟩ := Site.invocation_ok.mp hCode
      simp
  | _ => exact (select_throw_ok h).elim

omit hNames hNodup hMirrors in
/-- A value that nothing uses is taken from the stack again. -/
theorem runs_pop {α : Type} {x : Act α} {last : α → Value} {first : Store}
    (h : Runs setting body code first x fun a => ⟨last a :: stack, slots⟩) :
    Runs setting body (code ++ [.pop]) first x fun _ => ⟨stack, slots⟩ := by
  have hPop : Runs setting body (code ++ [.pop]) first (x >>= pure) fun _ => ⟨stack, slots⟩ :=
    h.append fun a _ => .ofAct rfl rfl
  exact hPop.of_eq (bind_pure x).symm

/-- A value that nothing uses is computed for what happens on the way and dropped. A stop on the way is
the same stop. -/
theorem carries_eval {i : Code.Instr} (hYields : i.Yields c)
    (h : (site.instr i).run p = .ok (code, p')) :
    Carries site c setting body code slots
      (Semantics.Code.value setting env i >>= fun _ => pure env) := by
  have hMere (hMere : Site.isMere i = true) : Carries site c setting body code slots
      (Semantics.Code.value setting env i >>= fun _ => pure env) := by
    obtain ⟨valueCode, hCode, rfl⟩ := (Site.instr_mere_run hMere).mp h
    exact carries_of_runs hMirrors (by simp)
      (runs_pop (runs_value hMirrors hNames hNodup hYields hCode))
  cases i with
  | operand | binary | not | getField => exact hMere rfl
  | call kind receiver method arguments returnType =>
      obtain ⟨callCode, pushes, hCall, rfl⟩ := Site.callStatement_run.mp h
      have hRuns : Runs setting body callCode ⟨[], slots⟩ _ _ := runs_call hMirrors hNames hYields hCall
      cases pushes with
      | true => exact carries_of_runs hMirrors (by simp) (runs_pop hRuns)
      | false => exact carries_of_runs hMirrors (call_ne_nil hYields hCall) hRuns
  | _ => cases hYields

end Instructions

end Selection

end MiniJava.Assembly
