import MiniJava.Proofs.Assembly.Runs
import MiniJava.Proofs.Lowering.Values
import MiniJava.Proofs.Stack.Labels
import MiniJava.Proofs.Stack.Slots

/-! Properties of all instructions of selected code. They are shown for the few shapes that selection
emits: operations on the stack, accesses to slots of the site, jumps and constructor calls. -/

namespace MiniJava.Stack

/-- Whether the instruction calls a constructor, or any other method in the special way. -/
def Instr.isSpecial : Instr → Bool
  | .invoke .special _ => true
  | _ => false

/-- Instructions that neither address slots nor jump nor call constructors. What is said of these need
not look at the site. -/
structure Instr.Operates (i : Instr) : Prop where
  slot : i.slot? = none
  label : i.label? = none
  target : i.target? = none
  special : i.isSpecial = false

theorem operates_pushInt (value : Int32) : (pushInt value).Operates := by
  unfold pushInt
  dsimp only
  split_ifs <;> exact ⟨rfl, rfl, rfl, rfl⟩

/-- All instructions of the code have the property. It holds of two pieces together if it holds of
both. -/
def Everywhere (P : Instr → Prop) (code : List Instr) : Prop := ∀ i ∈ code, P i

namespace Everywhere

variable {P : Instr → Prop} {code rest : List Instr}

theorem nil : Everywhere P [] := List.forall_mem_nil _

theorem single {i : Instr} (h : P i) : Everywhere P [i] := List.forall_mem_singleton.mpr h

theorem append (hCode : Everywhere P code) (hRest : Everywhere P rest) : Everywhere P (code ++ rest) :=
  List.forall_mem_append.mpr ⟨hCode, hRest⟩

theorem snoc (hCode : Everywhere P code) {i : Instr} (h : P i) : Everywhere P (code ++ [i]) :=
  hCode.append (.single h)

end Everywhere

end MiniJava.Stack

namespace MiniJava.Assembly.Site

open Code (Operand Ty)
open Stack (Everywhere loadSlot pushInt storeSlot)

/-- The property holds of operations and of accesses to the slots of the site. What is left to show of
selected code are its jumps, its labels and its constructor calls. -/
structure Pervades (site : Site) (P : Stack.Instr → Prop) : Prop where
  operates : ∀ {i}, i.Operates → P i
  reads : ∀ kind {name slot}, site.slot name = .ok slot → P (loadSlot kind slot)
  writes : ∀ kind {name slot}, site.slot name = .ok slot → P (storeSlot kind slot)
  receiver : site.method.isStatic = false → P (loadSlot .reference 0)

namespace Pervades

variable {site : Site} {P : Stack.Instr → Prop} {p p' : Progress} {code : List Stack.Instr}

/-- Loading an operand is made of accesses to slots of the site and of operations. The place of an item
is loaded in the same way. -/
theorem load (hP : site.Pervades P) {o : Operand} (h : site.load o = .ok code) :
    Everywhere P code := by
  induction o generalizing code with
  | literal value ty =>
      rw [load_literal_ok.mp h]
      exact .single (hP.operates (Stack.operates_pushInt value))
  | «variable» name ty =>
      obtain ⟨kind, _, _, hSlot, rfl⟩ := load_variable_ok.mp h
      exact .single (hP.reads kind hSlot)
  | element array place ty ih =>
      obtain ⟨_, slot, _, _, hSlot, hPlace, rfl⟩ := load_element_ok.mp h
      have hBase : Everywhere P [loadSlot .reference slot] := .single (hP.reads .reference hSlot)
      exact (hBase.append (ih hPlace)).snoc (hP.operates ⟨rfl, rfl, rfl, rfl⟩)
  | self ty =>
      obtain ⟨hInstance, rfl⟩ := load_self_ok.mp h
      exact .single (hP.receiver hInstance)
  | classRef name => exact (load_classRef_ok h).elim

theorem loadAll (hP : site.Pervades P) {operands : List Operand}
    (h : site.loadAll operands = .ok code) : Everywhere P code := by
  induction operands generalizing code with
  | nil =>
      rw [loadAll_nil_ok.mp h]
      exact .nil
  | cons o rest ih =>
      obtain ⟨_, _, hFirst, hOthers, rfl⟩ := loadAll_cons_ok.mp h
      exact (hP.load hFirst).append (ih hOthers)

/-- An invocation is the one instruction besides loads; the property is asked of it for all methods. -/
theorem invocation (hP : site.Pervades P) {kind : Stack.InvokeKind} {className name : String}
    {receiverCode : List Stack.Instr} {arguments : List Operand} {returnType : Ty} {pushes : Bool}
    (hCall : ∀ method, P (.invoke kind method)) (hReceiver : Everywhere P receiverCode)
    (h : site.invocation kind className name receiverCode arguments returnType =
      .ok (code, pushes)) : Everywhere P code := by
  obtain ⟨_, hArguments, rfl, -⟩ := invocation_ok.mp h
  exact (hReceiver.append (hP.loadAll hArguments)).snoc (hCall _)

/-- The receiver of a special call is loaded or is on the stack already, and then there is no code for
it. -/
theorem specialReceiver (hP : site.Pervades P) {receiver : Operand} {className : String}
    (h : (site.specialReceiver receiver).run p = .ok ((className, code), p')) :
    Everywhere P code := by
  rcases specialReceiver_run.mp h with ⟨_, _, _, _, _, rfl, -⟩ | ⟨_, _, _, _, _, hLoad, -⟩ |
    ⟨_, _, _, hLoad, -⟩ | ⟨_, _, _, hLoad, -⟩
  · exact .nil
  · exact hP.load hLoad
  · exact hP.load hLoad
  · exact hP.load hLoad

/-- Calls neither jump nor store, so only a constructor call among them needs to be looked at by
itself. -/
theorem call (hP : site.Pervades P) {i : Code.Instr} {pushes : Bool}
    (hSpecial : i.isPlain = true ∨ ∀ method, P (.invoke .special method))
    (h : (site.call i).run p = .ok ((code, pushes), p')) : Everywhere P code := by
  cases i with
  | call kind receiver method arguments returnType =>
      cases kind with
      | new =>
          cases hArray : returnType.isArray with
          | true =>
              obtain ⟨hNew, -⟩ := (call_newArray_run hArray).mp h
              obtain ⟨_, _, _, _, hLoad, rfl⟩ := newArray_ok.mp hNew
              exact (hP.load hLoad).snoc (hP.operates ⟨rfl, rfl, rfl, rfl⟩)
          | false =>
              obtain ⟨_, _, rfl, -⟩ := (call_newObject_run hArray).mp h
              exact .single (hP.operates ⟨rfl, rfl, rfl, rfl⟩)
      | arrayLength =>
          obtain ⟨_, hLoad, rfl, -⟩ := call_arrayLength_run.mp h
          exact (hP.load hLoad).snoc (hP.operates ⟨rfl, rfl, rfl, rfl⟩)
      | invokeStatic =>
          obtain ⟨_, _, _, _, hCode, -⟩ := call_invokeStatic_run.mp h
          exact hP.invocation (fun _ => hP.operates ⟨rfl, rfl, rfl, rfl⟩) .nil hCode
      | invokeVirtual =>
          obtain ⟨_, _, _, _, _, hLoad, hCode, -⟩ := call_invokeVirtual_run.mp h
          exact hP.invocation (fun _ => hP.operates ⟨rfl, rfl, rfl, rfl⟩) (hP.load hLoad) hCode
      | invokeSpecial =>
          obtain ⟨_, _, _, _, hReceiver, hCode⟩ := call_invokeSpecial_run.mp h
          rcases hSpecial with hPlain | hCall
          · cases hPlain
          · exact hP.invocation hCall (hP.specialReceiver hReceiver) hCode
  | _ => exact (select_throw_ok h).elim

section All

variable (hOther : ∀ {i : Stack.Instr}, i.slot? = none → i.isSpecial = false → P i)
include hOther

theorem comparisonCode (hP : site.Pervades P) (comparison : Stack.Comparison)
    (labels : String × String) : Everywhere P (Site.comparisonCode comparison labels) := by
  intro i hi
  simp only [Site.comparisonCode, List.mem_cons, List.not_mem_nil, or_false] at hi
  rcases hi with rfl | rfl | rfl | rfl | rfl | rfl
  · exact hOther rfl rfl
  · exact hP.operates (Stack.operates_pushInt 0)
  · exact hOther rfl rfl
  · exact hOther rfl rfl
  · exact hP.operates (Stack.operates_pushInt 1)
  · exact hOther rfl rfl

/-- The code of a value: operations, accesses, calls and the jumps of a comparison. It stores to no
slot. -/
theorem value (hP : site.Pervades P) {i : Code.Instr}
    (hSpecial : i.isPlain = true ∨ ∀ method, P (.invoke .special method))
    (h : (site.value i).run p = .ok (code, p')) : Everywhere P code := by
  cases i with
  | operand o => exact hP.load (value_operand_run.mp h).1
  | binary op left right ty =>
      rw [value_binary] at h
      obtain ⟨_, _, hLeft, hRight, hCode⟩ := binary_run.mp h
      have hOperands := (hP.load hLeft).append (hP.load hRight)
      rcases hCode with ⟨_, _, _, rfl⟩ | ⟨_, _, _, rfl⟩
      · exact hOperands.snoc (hOther rfl rfl)
      · exact hOperands.append (hP.comparisonCode hOther _ _)
  | not o ty =>
      obtain ⟨_, hLoad, rfl, -⟩ := value_not_run.mp h
      have hOne : Everywhere P [pushInt 1] := .single (hP.operates (Stack.operates_pushInt 1))
      exact (hP.load hLoad).append (hOne.snoc (hOther rfl rfl))
  | getField object field ty =>
      obtain ⟨_, _, _, hLoad, rfl, -⟩ := value_getField_run.mp h
      exact (hP.load hLoad).snoc (hOther rfl rfl)
  | call kind receiver method arguments returnType =>
      rw [value_call, callValue_run] at h
      exact hP.call hSpecial h
  | _ => exact (select_throw_ok h).elim

/-- Storing adds an access to the slot of the variable, or an operation where an item is stored. -/
theorem assign (hP : site.Pervades P) {dest : Operand} {rhs : Code.Instr}
    (hSpecial : rhs.isPlain = true ∨ ∀ method, P (.invoke .special method))
    (h : (site.assign dest rhs).run p = .ok (code, p')) : Everywhere P code := by
  cases dest with
  | «variable» name ty =>
      cases hNew : allocated? rhs with
      | some receiver =>
          obtain ⟨_, _, hSlot, _, rfl, -⟩ := (assign_newObject_run hNew).mp h
          have hObject : ∀ className, Everywhere P [.new className, .dup] := fun _ =>
            (Everywhere.single (hOther rfl rfl)).snoc (hOther rfl rfl)
          exact (hObject _).snoc (hP.writes .reference hSlot)
      | none =>
          obtain ⟨_, _, kind, hSlot, hValue, _, rfl⟩ := (assign_variable_run hNew).mp h
          exact (hP.value hOther hSpecial hValue).snoc (hP.writes kind hSlot)
  | element array place ty =>
      obtain ⟨_, slot, _, _, _, hSlot, hPlace, hValue, rfl⟩ := assign_element_run.mp h
      have hBase : Everywhere P [loadSlot .reference slot] := .single (hP.reads .reference hSlot)
      exact ((hBase.append (hP.load hPlace)).append (hP.value hOther hSpecial hValue)).snoc
        (hOther rfl rfl)
  | _ => exact (select_throw_ok h).elim

/-- Everything that selection emits for one instruction has the property; labels and jumps of the source
are among the shapes as well. -/
theorem instr (hP : site.Pervades P) {i : Code.Instr}
    (hSpecial : i.isPlain = true ∨ ∀ method, P (.invoke .special method))
    (h : (site.instr i).run p = .ok (code, p')) : Everywhere P code := by
  cases i with
  | assign dest ty rhs =>
      have hRhs : rhs.isPlain = true ∨ ∀ method, P (.invoke .special method) := hSpecial
      exact hP.assign hOther hRhs h
  | call kind receiver method arguments returnType =>
      obtain ⟨_, pushes, hCall, rfl⟩ := callStatement_run.mp h
      cases pushes with
      | true => exact (hP.call hSpecial hCall).snoc (hOther rfl rfl)
      | false => exact hP.call hSpecial hCall
  | putField object field ty value =>
      obtain ⟨_, _, _, _, hObject, hValue, rfl, -⟩ := instr_putField_run.mp h
      exact ((hP.load hObject).append (hP.load hValue)).snoc (hOther rfl rfl)
  | ret value ty =>
      obtain ⟨hRet, -⟩ := instr_ret_run.mp h
      cases value with
      | none =>
          rw [ret_none_ok.mp hRet]
          exact .single (hOther rfl rfl)
      | some value =>
          obtain ⟨_, _, hLoad, _, rfl⟩ := ret_some_ok.mp hRet
          exact (hP.load hLoad).snoc (hOther rfl rfl)
  | branch condition target =>
      obtain ⟨hBranch, -⟩ := instr_branch_run.mp h
      cases condition with
      | single o =>
          obtain ⟨_, hLoad, rfl⟩ := branch_single_ok.mp hBranch
          exact (hP.load hLoad).snoc (hOther rfl rfl)
      | compare op left right =>
          obtain ⟨_, _, _, _, hLeft, hRight, rfl⟩ := branch_compare_ok.mp hBranch
          exact ((hP.load hLeft).append (hP.load hRight)).snoc (hOther rfl rfl)
  | goto target =>
      obtain ⟨rfl, -⟩ := instr_goto_run.mp h
      exact .single (hOther rfl rfl)
  | label l =>
      obtain ⟨rfl, -⟩ := instr_label_run.mp h
      exact .single (hOther rfl rfl)
  | operand | binary | not | getField =>
      obtain ⟨_, hValue, rfl⟩ := (instr_mere_run rfl).mp h
      exact (hP.value hOther hSpecial hValue).snoc (hOther rfl rfl)

end All

end Pervades

end MiniJava.Assembly.Site
