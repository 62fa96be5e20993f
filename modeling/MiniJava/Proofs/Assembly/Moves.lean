import MiniJava.Proofs.Labels.Emitted
import MiniJava.Proofs.Stack.Flow

/-! How far the code of an instruction moves the depth of the stack. A special call on a variable
whose new object waits on the stack takes that object, wherever the call stands. -/

namespace MiniJava.Stack

/-- The code takes a stack of depth `first` to one of depth `last`, whatever labels were met before and
whether or not control comes to it. -/
def Moves (atLabel : String → Nat) (first last : Nat) (code : List Instr) : Prop :=
  ∀ f : Flow, f.depth = first → ∃ f', Flows atLabel f code f' ∧ f'.depth = last

namespace Moves

variable {atLabel : String → Nat} {first middle last : Nat} {code rest : List Instr}

theorem nil (depth : Nat) : Moves atLabel depth depth [] :=
  fun f hDepth => ⟨f, .nil f, hDepth⟩

/-- Depths add up along the code: what the first part leaves is what the rest finds. -/
theorem append (hCode : Moves atLabel first middle code) (hRest : Moves atLabel middle last rest) :
    Moves atLabel first last (code ++ rest) := by
  intro f hDepth
  obtain ⟨f₁, hFlows, hDepth₁⟩ := hCode f hDepth
  obtain ⟨f', hFlows', hDepth'⟩ := hRest f₁ hDepth₁
  exact ⟨f', hFlows.append hFlows', hDepth'⟩

/-- An instruction that goes on to the next one takes what it pops, which must be there, and leaves what
it pushes. -/
theorem instr (i : Instr) (hLabel : i.isLabel = false) (hTarget : i.target? = none)
    (hFirst : i.pops ≤ first) (hLast : last = first - i.pops + i.pushes) :
    Moves atLabel first last [i] := by
  rintro f rfl
  refine ⟨_, .cons ((Flow.fits_of_not_label hLabel).mpr ⟨hFirst, ?_⟩) (.nil _), ?_⟩
  · intro name hName
    rw [hTarget] at hName
    cases hName
  · rw [Flow.next_of_not_label hLabel, hLast]

/-- A jump also needs its target to be entered with the depth that it leaves. Behind it control may or
may not go on. -/
theorem jump (i : Instr) (name : String) (hLabel : i.isLabel = false)
    (hTarget : i.target? = some name) (hFirst : i.pops ≤ first)
    (hLast : last = first - i.pops + i.pushes) (hName : atLabel name = last) :
    Moves atLabel first last [i] := by
  rintro f rfl
  refine ⟨_, .cons ((Flow.fits_of_not_label hLabel).mpr ⟨hFirst, ?_⟩) (.nil _), ?_⟩
  · intro name' hName'
    rw [hTarget] at hName'
    cases hName'
    rw [hName, hLast]
  · rw [Flow.next_of_not_label hLabel, hLast]

theorem label {name : String} (hName : atLabel name = 0) : Moves atLabel 0 0 [.label name] :=
  fun _ hDepth => ⟨_, .cons ⟨fun _ => hDepth.trans hName.symm, .inl hName⟩ (.nil _), hName⟩

end Moves

variable {atLabel : String → Nat} {depth : Nat}

theorem moves_pushInt (value : Int32) : Moves atLabel depth (depth + 1) [pushInt value] := by
  unfold pushInt
  dsimp only
  split_ifs <;> exact .instr _ rfl rfl (Nat.zero_le _) rfl

theorem moves_loadSlot (kind : Kind) (slot : UInt16) :
    Moves atLabel depth (depth + 1) [loadSlot kind slot] := by
  unfold loadSlot
  split_ifs <;> exact .instr _ rfl rfl (Nat.zero_le _) rfl

theorem moves_storeSlot (kind : Kind) (slot : UInt16) :
    Moves atLabel (depth + 1) depth [storeSlot kind slot] := by
  unfold storeSlot
  split_ifs <;> exact .instr _ rfl rfl (Nat.le_add_left _ _) rfl

end MiniJava.Stack

namespace MiniJava.Code

/-- The variable on which the instruction makes a special call, as a statement or for a value. A special
call on the receiver names no variable. -/
def Instr.constructs? : Instr → Option String
  | .call .invokeSpecial (.variable name _) _ _ _ => some name
  | .assign _ _ rhs => rhs.constructs?
  | _ => none

/-- The variable to which the instruction assigns a new object. This is the only instruction that makes
the stack deeper. -/
def Instr.allocates? : Instr → Option String
  | .assign (.variable name _) _ (.call .new _ _ _ returnType) =>
      if returnType.isArray then none else some name
  | _ => none

theorem Instr.allocates?_of_isPlain {i : Instr} (hPlain : i.isPlain = true) : i.allocates? = none := by
  unfold allocates?
  split
  · exact if_pos hPlain
  · rfl

end MiniJava.Code

namespace MiniJava.Assembly

open Code (Condition Method Operand Ty Label)
open Stack (Flow Flows Moves)

/-- Whether the instruction takes an object that waits for its constructor. It then does not push its
receiver. -/
def Progress.takes (p : Progress) (i : Code.Instr) : Bool := i.constructs?.any (p.pending.contains ·)

section Selection

variable {site : Site} {p p' : Progress} {code : List Stack.Instr} {atLabel : String → Nat}
  {depth : Nat}

attribute [local simp] Code.Instr.allocates? Code.Instr.constructs?

theorem takes_of_pending_nil (hPending : p.pending = []) (i : Code.Instr) : p.takes i = false := by
  unfold Progress.takes
  rw [hPending]
  cases i.constructs? <;> rfl

/-- An operand is one value more. An item of an array is loaded over its array and its place, which are
gone afterwards. -/
theorem moves_load {o : Operand} (h : site.load o = .ok code) :
    Moves atLabel depth (depth + 1) code := by
  induction o generalizing depth code with
  | literal value ty =>
      rw [Site.load_literal_ok.mp h]
      exact Stack.moves_pushInt value
  | «variable» name ty =>
      obtain ⟨_, _, _, _, rfl⟩ := Site.load_variable_ok.mp h
      exact Stack.moves_loadSlot _ _
  | element array place ty ih =>
      obtain ⟨_, _, _, _, _, hPlace, rfl⟩ := Site.load_element_ok.mp h
      exact ((Stack.moves_loadSlot _ _).append (ih hPlace)).append
        (.instr _ rfl rfl (Nat.le_add_left 2 depth) rfl)
  | self ty =>
      obtain ⟨_, rfl⟩ := Site.load_self_ok.mp h
      exact Stack.moves_loadSlot _ _
  | classRef name => exact (Site.load_classRef_ok h).elim

theorem moves_loadAll {operands : List Operand} (h : site.loadAll operands = .ok code) :
    Moves atLabel depth (depth + operands.length) code := by
  induction operands generalizing depth code with
  | nil =>
      rw [Site.loadAll_nil_ok.mp h]
      exact .nil _
  | cons o rest ih =>
      obtain ⟨_, _, hFirst, hOthers, rfl⟩ := Site.loadAll_cons_ok.mp h
      have hRest : Moves atLabel (depth + 1) (depth + 1 + rest.length) _ := ih hOthers
      rw [Nat.add_right_comm] at hRest
      exact (moves_load hFirst).append hRest

/-- A method takes as many arguments as a call passes, whether its parameters are looked up or made from
the arguments. -/
theorem methodRef_parameters_length (scope : ClassScope) (className name : String)
    (arguments : List Operand) (result : Ty) :
    (scope.methodRef className name arguments result).parameters.length = arguments.length := by
  simp only [ClassScope.methodRef, List.length_map]
  unfold ClassScope.methodRef.parameterTypes
  split
  · rename_i method hDeclared
    unfold ClassScope.methodRef.declared? at hDeclared
    split at hDeclared
    · rw [Option.filter_eq_some_iff] at hDeclared
      simpa [Method.parameterTypes] using hDeclared.2
    · cases hDeclared
  · simp

/-- A method that is called without arguments has no parameters, whether or not the class declares it. -/
theorem methodRef_nil (scope : ClassScope) (className name : String) (result : Ty) :
    scope.methodRef className name [] result = ⟨className, name, [], scope.descriptor result⟩ := by
  have hParameters := methodRef_parameters_length scope className name [] result
  rw [List.length_nil, List.length_eq_zero_iff] at hParameters
  exact congrArg (Stack.MethodRef.mk className name · (scope.descriptor result)) hParameters

/-- What a call that may push a value adds to the stack, as a number of cells. -/
def pushed (pushes : Bool) : Nat := if pushes then 1 else 0

/-- The receiver and the arguments give way to the result. The code of the receiver may have found it on
the stack, and so begins at a depth of its own. -/
theorem moves_invocation {kind : Stack.InvokeKind} {className name : String}
    {receiverCode : List Stack.Instr} {arguments : List Operand} {returnType : Ty} {pushes : Bool}
    {first : Nat}
    (hReceiver : Moves atLabel first (depth + if kind.hasReceiver then 1 else 0) receiverCode)
    (h : site.invocation kind className name receiverCode arguments returnType =
      .ok (code, pushes)) : Moves atLabel first (depth + pushed pushes) code := by
  obtain ⟨_, hArguments, rfl, rfl⟩ := Site.invocation_ok.mp h
  refine (hReceiver.append (moves_loadAll hArguments)).append (.instr _ rfl rfl ?_ ?_)
  · simp only [Stack.Instr.pops, methodRef_parameters_length]
    omega
  · simp only [Stack.Instr.pops, Stack.Instr.pushes, methodRef_parameters_length, pushed]
    omega

/-- The receiver of a special invocation is on the stack already if it waits there. In both cases it lies
below the arguments. -/
theorem moves_specialReceiver {receiver : Operand} {className : String} {method : Option String}
    {arguments : List Operand} {returnType : Ty}
    (h : (site.specialReceiver receiver).run p = .ok ((className, code), p')) :
    Moves atLabel
      (depth + (p.takes (.call .invokeSpecial receiver method arguments returnType)).toNat)
      (depth + 1) code := by
  rcases Site.specialReceiver_run.mp h with ⟨name, ty, rfl, hWaits, _, rfl, _⟩ |
    ⟨name, ty, rfl, hWaits, _, hLoad, _⟩ | ⟨_, rfl, _, hLoad, _⟩ | ⟨hOther, _, _, hLoad, _⟩
  · have hTakes : p.takes (.call .invokeSpecial (.variable name ty) method arguments returnType) =
        true := hWaits
    rw [hTakes]
    exact .nil _
  · have hTakes : p.takes (.call .invokeSpecial (.variable name ty) method arguments returnType) =
        false := hWaits
    rw [hTakes]
    exact moves_load hLoad
  · exact moves_load hLoad
  · cases receiver with
    | «variable» name ty => exact (hOther name ty rfl).elim
    | _ => exact moves_load hLoad

/-- Only a special call on an object that waits begins one deeper, with that object; all calls end with
the result they push over the rest. -/
theorem moves_call {i : Code.Instr} {pushes : Bool}
    (h : (site.call i).run p = .ok ((code, pushes), p')) :
    Moves atLabel (depth + (p.takes i).toNat) (depth + pushed pushes) code := by
  cases i with
  | call kind receiver method arguments returnType =>
      cases kind with
      | new =>
          cases hArray : returnType.isArray with
          | true =>
              obtain ⟨hNew, rfl, _⟩ := (Site.call_newArray_run hArray).mp h
              obtain ⟨_, _, _, _, hLoad, rfl⟩ := Site.newArray_ok.mp hNew
              exact (moves_load hLoad).append (.instr _ rfl rfl (Nat.le_add_left _ _) rfl)
          | false =>
              obtain ⟨_, _, rfl, rfl, _⟩ := (Site.call_newObject_run hArray).mp h
              exact .instr _ rfl rfl (Nat.zero_le _) rfl
      | arrayLength =>
          obtain ⟨_, hLoad, rfl, rfl, _⟩ := Site.call_arrayLength_run.mp h
          exact (moves_load hLoad).append (.instr _ rfl rfl (Nat.le_add_left _ _) rfl)
      | invokeStatic =>
          obtain ⟨_, _, _, _, hCode, _⟩ := Site.call_invokeStatic_run.mp h
          exact moves_invocation (.nil _) hCode
      | invokeVirtual =>
          obtain ⟨_, _, _, _, _, hLoad, hCode, _⟩ := Site.call_invokeVirtual_run.mp h
          exact moves_invocation (moves_load hLoad) hCode
      | invokeSpecial =>
          obtain ⟨_, _, _, _, hReceiver, hCode⟩ := Site.call_invokeSpecial_run.mp h
          exact moves_invocation (moves_specialReceiver hReceiver) hCode
  | _ => exact (select_throw_ok h).elim

/-- The labels of some comparisons have the depths that comparisons over `depth` cells need. The second
one stands above the value of the comparison. -/
def ComparisonsAt (atLabel : String → Nat) (depth first last : Nat) : Prop :=
  ∀ id, first ≤ id → id < last →
    atLabel (comparisonLabels id).1 = depth ∧ atLabel (comparisonLabels id).2 = depth + 1

/-- The two ways through a comparison push one value each and meet with the same depth, at its second
label. -/
theorem moves_comparisonCode (comparison : Stack.Comparison) (id : Nat)
    (hLabels : ComparisonsAt atLabel depth id (id + 1)) :
    Moves atLabel (depth + 2) (depth + 1)
      (Site.comparisonCode comparison (comparisonLabels id)) := by
  obtain ⟨hTrue, hEnd⟩ := hLabels id (Nat.le_refl _) (Nat.lt_succ_self _)
  have hZero : Stack.pushInt 0 = .iconst 0 := by decide
  have hOne : Stack.pushInt 1 = .iconst 1 := by decide
  rw [Site.comparisonCode, hZero, hOne]
  intro f hDepth
  have hBelow : f.depth - 2 + 0 = depth := by omega
  have hPush (value : UInt8) (f : Flow) : f.Fits atLabel (.iconst value) :=
    ⟨Nat.zero_le _, fun _ hTarget => by cases hTarget⟩
  refine ⟨_, .cons ⟨?_, ?_⟩ (.cons (hPush 0 _) (.cons ⟨Nat.zero_le _, ?_⟩
    (.cons ⟨fun hFalls => ?_, ?_⟩ (.cons (hPush 1 _) (.cons ⟨fun _ => ?_, ?_⟩ (.nil _)))))), hEnd⟩
  · exact hDepth ▸ Nat.le_add_left _ _
  · rintro _ ⟨⟩
    exact hTrue.trans hBelow.symm
  · rintro _ ⟨⟩
    rw [hEnd, ← hBelow]
    rfl
  · cases hFalls
  · exact .inr (by simp [Flow.next, Stack.Instr.target?])
  · rw [hEnd, ← hTrue]
    rfl
  · exact .inr (by simp [Flow.next, Stack.Instr.target?])

/-- A value is one more on the stack, or takes the place of an object that waited and was constructed. -/
theorem moves_value {i : Code.Instr} (h : (site.value i).run p = .ok (code, p'))
    (hLabels : ComparisonsAt atLabel depth p.comparisons p'.comparisons) :
    Moves atLabel (depth + (p.takes i).toNat) (depth + 1) code := by
  cases i with
  | operand o => exact moves_load (Site.value_operand_run.mp h).1
  | binary op left right ty =>
      rw [Site.value_binary] at h
      obtain ⟨leftCode, rightCode, hLeft, hRight, hCode⟩ := Site.binary_run.mp h
      have hOperands : Moves atLabel depth (depth + 2) (leftCode ++ rightCode) :=
        (moves_load hLeft).append (moves_load hRight)
      rcases hCode with ⟨_, _, rfl, rfl⟩ | ⟨_, _, rfl, rfl⟩
      · exact hOperands.append (.instr _ rfl rfl (Nat.le_add_left _ _) rfl)
      · exact hOperands.append (moves_comparisonCode _ _ hLabels)
  | not o ty =>
      obtain ⟨_, hLoad, rfl, _⟩ := Site.value_not_run.mp h
      have hNot : Moves atLabel (depth + 1) (depth + 1) [Stack.pushInt 1, .arithmetic .xor] :=
        (Stack.moves_pushInt 1).append (.instr _ rfl rfl (Nat.le_add_left _ _) rfl)
      exact (moves_load hLoad).append hNot
  | getField object field ty =>
      obtain ⟨_, _, _, hLoad, rfl, _⟩ := Site.value_getField_run.mp h
      exact (moves_load hLoad).append (.instr _ rfl rfl (Nat.le_add_left _ _) rfl)
  | call kind receiver method arguments returnType =>
      rw [Site.value_call, Site.callValue_run] at h
      exact moves_call h
  | _ => exact (select_throw_ok h).elim

/-- After a special call on a variable its object no longer waits, and all others do as before. -/
theorem mem_pending_specialReceiver {receiver : Operand} {className : String} {method : Option String}
    {arguments : List Operand} {returnType : Ty}
    (h : (site.specialReceiver receiver).run p = .ok ((className, code), p')) {name : String} :
    name ∈ p'.pending ↔ name ∈ p.pending ∧
      (Code.Instr.call .invokeSpecial receiver method arguments returnType).constructs? ≠
        some name := by
  rcases Site.specialReceiver_run.mp h with ⟨_, _, rfl, _, _, _, rfl⟩ | ⟨_, _, rfl, _, _, _, rfl⟩ |
    ⟨_, rfl, _, _, rfl⟩ | ⟨hOther, _, _, _, rfl⟩
  · simp [eq_comm (a := name)]
  · simp [eq_comm (a := name)]
  · simp
  · cases receiver with
    | «variable» name ty => exact (hOther name ty rfl).elim
    | _ => simp

theorem mem_pending_call {i : Code.Instr} {pushes : Bool}
    (h : (site.call i).run p = .ok ((code, pushes), p')) {name : String} :
    name ∈ p'.pending ↔ name ∈ p.pending ∧ i.constructs? ≠ some name := by
  cases i with
  | call kind receiver method arguments returnType =>
      cases kind with
      | new =>
          cases hArray : returnType.isArray with
          | true =>
              obtain ⟨_, _, rfl⟩ := (Site.call_newArray_run hArray).mp h
              simp
          | false =>
              obtain ⟨_, _, _, _, rfl⟩ := (Site.call_newObject_run hArray).mp h
              simp
      | arrayLength =>
          obtain ⟨_, _, _, _, rfl⟩ := Site.call_arrayLength_run.mp h
          simp
      | invokeStatic =>
          obtain ⟨_, _, _, _, _, rfl⟩ := Site.call_invokeStatic_run.mp h
          simp
      | invokeVirtual =>
          obtain ⟨_, _, _, _, _, _, _, rfl⟩ := Site.call_invokeVirtual_run.mp h
          simp
      | invokeSpecial =>
          obtain ⟨_, _, _, _, hReceiver, _⟩ := Site.call_invokeSpecial_run.mp h
          exact mem_pending_specialReceiver hReceiver
  | _ => exact (select_throw_ok h).elim

/-- A value that is computed brings in no object that waits: the objects are made by assignments. -/
theorem mem_pending_value {i : Code.Instr} (h : (site.value i).run p = .ok (code, p'))
    {name : String} : name ∈ p'.pending ↔ name ∈ p.pending ∧ i.constructs? ≠ some name := by
  cases i with
  | operand o =>
      obtain ⟨_, rfl⟩ := Site.value_operand_run.mp h
      simp
  | binary op left right ty =>
      rw [Site.value_binary] at h
      obtain ⟨_, _, _, _, ⟨_, _, rfl, _⟩ | ⟨_, _, rfl, _⟩⟩ := Site.binary_run.mp h
      · simp
      · simp
  | not o ty =>
      obtain ⟨_, _, _, rfl⟩ := Site.value_not_run.mp h
      simp
  | getField object field ty =>
      obtain ⟨_, _, _, _, _, rfl⟩ := Site.value_getField_run.mp h
      simp
  | call kind receiver method arguments returnType =>
      rw [Site.value_call, Site.callValue_run] at h
      exact mem_pending_call h
  | _ => exact (select_throw_ok h).elim

/-- An assignment to a variable makes an object exactly if its right-hand side is an allocation, the case
that selection looks for as well. -/
theorem allocates?_assign (name : String) (destTy ty : Ty) (rhs : Code.Instr) :
    (Code.Instr.assign (.variable name destTy) ty rhs).allocates? =
      if (Site.allocated? rhs).isSome then some name else none := by
  cases rhs with
  | call kind receiver method arguments returnType =>
      cases kind with
      | new => cases hArray : returnType.isArray <;> simp [Site.allocated?, hArray]
      | _ => rfl
  | _ => rfl

/-- An allocation is no special call, so that one instruction never both brings in an object and takes
one. -/
theorem constructs?_of_allocated? {rhs : Code.Instr} {receiver : Operand}
    (h : Site.allocated? rhs = some receiver) : rhs.constructs? = none := by
  unfold Site.allocated? at h
  split at h
  · rfl
  · cases h

/-- Only a new object that is assigned to a variable comes to wait, and only a special call on the
variable ends the waiting. -/
theorem mem_pending_instr {i : Code.Instr} (h : (site.instr i).run p = .ok (code, p')) {name : String} :
    name ∈ p'.pending ↔
      i.allocates? = some name ∨ name ∈ p.pending ∧ i.constructs? ≠ some name := by
  cases i with
  | assign dest ty rhs =>
      cases dest with
      | «variable» other destTy =>
          rw [allocates?_assign]
          cases hNew : Site.allocated? rhs with
          | some receiver =>
              obtain ⟨_, _, _, _, _, rfl⟩ := (Site.assign_newObject_run hNew).mp h
              simp only [Option.isSome_some, if_true, List.mem_cons, List.mem_filter,
                Code.Instr.constructs?, constructs?_of_allocated? hNew]
              by_cases hSame : other = name
              · simp [hSame]
              · simp [hSame, Ne.symm hSame]
          | none =>
              obtain ⟨_, _, _, _, hValue, _, _⟩ := (Site.assign_variable_run hNew).mp h
              rw [mem_pending_value hValue]
              simp
      | element array place destTy =>
          obtain ⟨_, _, _, _, _, _, _, hValue, _⟩ := Site.assign_element_run.mp h
          rw [mem_pending_value hValue]
          simp
      | _ => exact (select_throw_ok h).elim
  | call kind receiver method arguments returnType =>
      obtain ⟨_, _, hCall, _⟩ := Site.callStatement_run.mp h
      rw [mem_pending_call hCall]
      simp
  | operand | binary | not | getField =>
      obtain ⟨_, hValue, _⟩ := (Site.instr_mere_run rfl).mp h
      rw [mem_pending_value hValue]
      simp
  | putField object field ty value =>
      obtain ⟨_, _, _, _, _, _, _, rfl⟩ := Site.instr_putField_run.mp h
      simp
  | ret value ty =>
      obtain ⟨_, rfl⟩ := Site.instr_ret_run.mp h
      simp
  | branch condition target =>
      obtain ⟨_, rfl⟩ := Site.instr_branch_run.mp h
      simp
  | goto target =>
      obtain ⟨_, rfl⟩ := Site.instr_goto_run.mp h
      simp
  | label l =>
      obtain ⟨_, rfl⟩ := Site.instr_label_run.mp h
      simp

/-- An assignment turns a comparison into a value over the stack as it was, or over the array and the
place of the item to assign. -/
theorem moves_assign {dest : Operand} {ty : Ty} {rhs : Code.Instr} (depth : Nat)
    (h : (site.assign dest rhs).run p = .ok (code, p')) :
    ∃ base, ∀ atLabel, ComparisonsAt atLabel base p.comparisons p'.comparisons →
      Moves atLabel (depth + (p.takes rhs).toNat)
        (depth + (Code.Instr.assign dest ty rhs).allocates?.isSome.toNat) code := by
  cases dest with
  | «variable» name destTy =>
      rw [allocates?_assign]
      cases hNew : Site.allocated? rhs with
      | some receiver =>
          obtain ⟨_, _, _, _, rfl, _⟩ := (Site.assign_newObject_run hNew).mp h
          refine ⟨0, fun atLabel _ => ?_⟩
          have hTakes : p.takes rhs = false := by
            rw [Progress.takes, constructs?_of_allocated? hNew]
            rfl
          have hObject (className : String) : Moves atLabel depth (depth + 2) [.new className, .dup] :=
            (Moves.instr (.new className) rfl rfl (Nat.zero_le _) rfl).append
              (.instr .dup rfl rfl (Nat.le_add_left _ _) rfl)
          rw [hTakes]
          exact (hObject _).append (Stack.moves_storeSlot _ _)
      | none =>
          obtain ⟨_, _, _, _, hValue, _, rfl⟩ := (Site.assign_variable_run hNew).mp h
          exact ⟨depth, fun atLabel hLabels =>
            (moves_value hValue hLabels).append (Stack.moves_storeSlot _ _)⟩
  | element array place destTy =>
      obtain ⟨_, slot, placeCode, _, _, _, hPlace, hValue, rfl⟩ := Site.assign_element_run.mp h
      refine ⟨depth + 2, fun atLabel hLabels => ?_⟩
      have hBase : Moves atLabel (depth + (p.takes rhs).toNat) (depth + 2 + (p.takes rhs).toNat)
          (Stack.loadSlot .reference slot :: placeCode) := by
        rw [Nat.add_right_comm depth 2]
        exact (Stack.moves_loadSlot _ _).append (moves_load hPlace)
      exact (hBase.append (moves_value hValue hLabels)).append
        (.instr _ rfl rfl (Nat.le_add_left _ _) rfl)
  | _ => exact (select_throw_ok h).elim

/-- What a conditional jump tests is taken from the stack again, so that both ways go on from the depth
before. -/
theorem moves_branch {condition : Condition} {target : String}
    (hTarget : atLabel target = depth) (h : site.branch condition target = .ok code) :
    Moves atLabel depth depth code := by
  cases condition with
  | single o =>
      obtain ⟨_, hLoad, rfl⟩ := Site.branch_single_ok.mp h
      exact (moves_load hLoad).append (.jump _ target rfl rfl (Nat.le_add_left _ _) rfl hTarget)
  | compare op left right =>
      obtain ⟨_, _, _, _, hLeft, hRight, rfl⟩ := Site.branch_compare_ok.mp h
      exact ((moves_load hLeft).append (moves_load hRight)).append
        (.jump _ target rfl rfl (Nat.le_add_left _ _) rfl hTarget)

/-- A return takes its value and leaves the rest, which nothing uses any more. In lowered code there is
none. -/
theorem moves_ret {value : Option Operand} {ty : Ty} (h : site.ret value ty = .ok code) :
    Moves atLabel depth depth code := by
  cases value with
  | none =>
      rw [Site.ret_none_ok.mp h]
      exact .instr _ rfl rfl (Nat.zero_le _) rfl
  | some value =>
      obtain ⟨_, _, hLoad, _, rfl⟩ := Site.ret_some_ok.mp h
      exact (moves_load hLoad).append (.instr _ rfl rfl (Nat.le_add_left _ _) rfl)

theorem moves_callStatement {i : Code.Instr} (h : (site.callStatement i).run p = .ok (code, p')) :
    Moves atLabel (depth + (p.takes i).toNat) depth code := by
  obtain ⟨_, pushes, hCall, rfl⟩ := Site.callStatement_run.mp h
  have hMoves : Moves atLabel (depth + (p.takes i).toNat) (depth + pushed pushes) _ := moves_call hCall
  cases pushes with
  | true => exact hMoves.append (.instr _ rfl rfl (Nat.le_add_left _ _) rfl)
  | false => exact hMoves

/-- Apart from labels, an instruction leaves the stack as deep as it finds it, save that an object
comes to wait on it or is taken from it. -/
theorem moves_selected {i : Code.Instr} (depth : Nat) (hLabel : i.label? = none)
    (h : (site.instr i).run p = .ok (code, p')) :
    ∃ base, ∀ atLabel, ComparisonsAt atLabel base p.comparisons p'.comparisons →
      (∀ l : Label, i.target? = some l → atLabel l.text = depth) →
      Moves atLabel (depth + (p.takes i).toNat) (depth + i.allocates?.isSome.toNat) code := by
  cases i with
  | assign dest ty rhs =>
      obtain ⟨base, hMoves⟩ := moves_assign depth h
      exact ⟨base, fun atLabel hLabels _ => hMoves atLabel hLabels⟩
  | call kind receiver method arguments returnType =>
      exact ⟨0, fun atLabel _ _ => moves_callStatement h⟩
  | operand | binary | not | getField =>
      obtain ⟨_, hValue, rfl⟩ := (Site.instr_mere_run rfl).mp h
      exact ⟨depth, fun atLabel hLabels _ =>
        (moves_value hValue hLabels).append (.instr _ rfl rfl (Nat.le_add_left _ _) rfl)⟩
  | putField object field ty value =>
      obtain ⟨_, _, _, _, hObject, hValue, rfl, rfl⟩ := Site.instr_putField_run.mp h
      exact ⟨0, fun atLabel _ _ => ((moves_load hObject).append (moves_load hValue)).append
        (.instr _ rfl rfl (Nat.le_add_left _ _) rfl)⟩
  | ret value ty =>
      obtain ⟨hRet, rfl⟩ := Site.instr_ret_run.mp h
      exact ⟨0, fun atLabel _ _ => moves_ret hRet⟩
  | branch condition target =>
      obtain ⟨hBranch, rfl⟩ := Site.instr_branch_run.mp h
      exact ⟨0, fun atLabel _ hText => moves_branch (hText target rfl) hBranch⟩
  | goto target =>
      obtain ⟨rfl, rfl⟩ := Site.instr_goto_run.mp h
      exact ⟨0, fun atLabel _ hText =>
        .jump _ target.text rfl rfl (Nat.zero_le _) rfl (hText target rfl)⟩
  | label l => cases hLabel

end Selection

end MiniJava.Assembly
