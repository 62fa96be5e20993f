import MiniJava.Proofs.Assembly.Totality
import MiniJava.Proofs.Lowering.Freshness
import MiniJava.Proofs.Stack.Kinds
import Mathlib.Data.List.TakeWhile

/-! Kinds in the code of a method. What an instruction loads is of the kind that its type says, and
between instructions the slots of all variables assigned so far hold values of their kinds. -/

namespace MiniJava.Code.Ty

/-- The kind of the values of the type. Void has no values, and its kind is of no account. -/
def kind : Ty → Stack.Kind
  | .int32 | .boolean => .int
  | .string | .void | .object _ | .array _ => .reference

/-- A value may be of another type than the one expected, but never of another kind, since only objects
stand in for objects of other classes. -/
theorem Fits.kind {ty expected : Ty} (h : ty.Fits expected) : ty.kind = expected.kind := by
  rcases h with rfl | ⟨hTy, hExpected⟩
  · rfl
  · cases ty <;> cases hTy <;> cases expected <;> cases hExpected <;> rfl

end MiniJava.Code.Ty

namespace MiniJava.Assembly

open Code (CallKind Complete Condition Context Method Operand Ty Label assigned)
open Lowering (allocation construction)
open Stack (Cells Kind Turns descriptorKind kinds)

section Types

variable {ty : Ty}

/-- Selection asks for a kind and may refuse, as it does for void. Where it answers, the answer is the
kind of the type. -/
theorem kindOf_eq {kind : Kind} (h : kindOf ty = .ok kind) : kind = ty.kind := by
  cases ty <;> cases h <;> rfl

/-- Items of arrays have kinds of their own, in which booleans are bytes. On the stack such an item has
the kind of its type. -/
theorem elementKindOf_eq {kind : Stack.ElementKind} (h : elementKindOf ty = .ok kind) :
    kind.kind = ty.kind := by
  cases ty <;> cases h <;> rfl

/-- A descriptor tells the kind of the type that it describes. It tells nothing else that selection
needs. -/
theorem ClassScope.descriptorKind_descriptor (scope : ClassScope) (ty : Ty) :
    descriptorKind (scope.descriptor ty) = ty.kind := by
  have hInt : scope.descriptor ty = "I" ↔ ty = .int32 := scope.descriptor_eq_iff (.inl rfl)
  have hBoolean : scope.descriptor ty = "Z" ↔ ty = .boolean := scope.descriptor_eq_iff (.inr (.inl rfl))
  simp only [descriptorKind, hInt, hBoolean]
  cases ty <;> rfl

end Types

/-- No class but the class itself goes by its name, as class files spell names. Without this a call of
another class could be taken for one of its own methods. -/
structure Alone (unit : Code.ClassUnit) : Prop where
  string : unit.name ≠ stringClass
  others : ∀ name, qualify unit name = unit.name → name = unit.name

theorem slashed_of_no_slash {name : String} (h : '/' ∉ (slashed name).toList) :
    '.' ∉ name.toList ∧ slashed name = name := by
  rw [slashed, String.toList_ofList] at h
  have hDot : '.' ∉ name.toList := fun hMem => h (List.mem_map.mpr ⟨'.', hMem, rfl⟩)
  refine ⟨hDot, ?_⟩
  have hSame : (name.toList.map fun c => if c = '.' then '/' else c) = name.toList.map id :=
    List.map_congr_left fun c hc => if_neg (ne_of_mem_of_not_mem hc hDot)
  rw [slashed, hSame, List.map_id, String.ofList_toList]

theorem lastSegment_of_no_dot {name : String} (h : '.' ∉ name.toList) : lastSegment name = name := by
  have hAll : name.toList.reverse.takeWhile (· ≠ '.') = name.toList.reverse :=
    List.takeWhile_eq_self_iff.mpr fun c hc =>
      decide_eq_true (ne_of_mem_of_not_mem (List.mem_reverse.mp hc) h)
  rw [lastSegment, hAll, List.reverse_reverse, String.ofList_toList]

/-- Only the names of imported classes are spelt with slashes, so a class without one in its name goes
alone by that name. -/
theorem alone_of_no_slash {unit : Code.ClassUnit} (h : '/' ∉ unit.name.toList) : Alone unit where
  string hName := by
    rw [hName] at h
    exact h (by decide)
  others name hName := by
    unfold qualify at hName
    split_ifs at hName with hOwn
    · exact hOwn
    · obtain ⟨hDot, hSlashed⟩ := slashed_of_no_slash (hName ▸ h)
      rw [hSlashed] at hName
      cases hImport : importOf? unit.imports name with
      | none => rwa [hImport] at hName
      | some path =>
          rw [hImport, Option.getD_some] at hName hDot
          have hSegment : lastSegment path = name :=
            of_decide_eq_true (List.find?_some (p := fun path => decide (lastSegment path = name)) hImport)
          rw [lastSegment_of_no_dot hDot] at hSegment
          exact hSegment.symm.trans hName

/-- Arguments that fit the types of the parameters have the kinds of the parameters, one by one. -/
theorem kinds_of_fits {arguments : List Operand} {types : List Ty}
    (h : List.Forall₂ (fun o ty => o.ty.Fits ty) arguments types) :
    arguments.map (·.ty.kind) = types.map Ty.kind := by
  induction h with
  | nil => rfl
  | cons hFits _ ih => rw [List.map_cons, List.map_cons, hFits.kind, ih]

/-- What code is typed against is what it is selected for: the slots, the class, and the parameters of
its methods agree. -/
structure Site.Suits (site : Site) (c : Context) : Prop where
  lays : Frame.Lays site.method.receiverSlots (Frame.order site.method) site.frame
  isStatic : site.method.isStatic = c.isStatic
  className : site.scope.unit.name = c.className
  alone : Alone site.scope.unit
  parameters : ∀ name m, site.scope.unit.method? name = some m →
    c.parameters? name = some m.parameterTypes

section Own

variable {site : Site} {c : Context} (hSuits : site.Suits c)

include hSuits

/-- Operands of other types give access to other classes. A class that goes alone by its name is found by
its own type only. -/
theorem Site.Suits.ty_of_classOf {o : Operand} (h : site.scope.classOf o = .ok site.scope.unit.name)
    (ho : o.Typed c ∨ ∃ name, o = .classRef name) : o.ty = .object c.className := by
  have hName (name : String) (hEq : qualify site.scope.unit name = site.scope.unit.name) :
      Ty.object name = .object c.className := by
    rw [hSuits.alone.others name hEq, hSuits.className]
  cases o with
  | self ty =>
      rcases ho with hTyped | ⟨_, ⟨⟩⟩
      cases hTyped
      rfl
  | classRef name => exact hName name (Except.ok.inj h)
  | literal value ty | «variable» name ty | element array place ty =>
      cases ty with
      | object name => exact hName name (Except.ok.inj h)
      | string => exact (hSuits.alone.string (Except.ok.inj h).symm).elim
      | _ => cases h

/-- A method that the class declares is called with arguments of the kinds of its parameters; any
other method is taken to have parameters of the types of the arguments. -/
theorem Site.Suits.kinds_parameters {target : Operand} {className method : String}
    {arguments : List Operand} (result : Ty)
    (hTarget : target.Typed c ∨ ∃ name, target = .classRef name)
    (hClass : site.scope.classOf target = .ok className) (hPasses : c.Passes target method arguments) :
    (site.scope.methodRef className method arguments result).parameters.map descriptorKind =
      arguments.map (·.ty.kind) := by
  have hTypes (types : List Ty) :
      (types.map site.scope.descriptor).map descriptorKind = types.map Ty.kind := by
    rw [List.map_map]
    exact List.map_congr_left fun ty _ => site.scope.descriptorKind_descriptor ty
  rw [ClassScope.methodRef, hTypes]
  unfold ClassScope.methodRef.parameterTypes
  split
  · rename_i m hDeclared
    unfold ClassScope.methodRef.declared? at hDeclared
    split_ifs at hDeclared with hOwn
    subst hOwn
    obtain ⟨hFound, hLength⟩ := Option.filter_eq_some_iff.mp hDeclared
    have hTypes := hPasses.fits (hSuits.ty_of_classOf hClass hTarget) _
      (hSuits.parameters method m hFound)
      (by simpa [Method.parameterTypes] using (of_decide_eq_true hLength).symm)
    exact (kinds_of_fits hTypes).symm
  · rw [List.map_map]
    rfl

end Own

section Slots

variable (site : Site) (c : Context)

open Classical in
/-- The kinds of the values in the slots: that of the receiver, and those of the variables in `known`. A
slot whose variable is not assigned yet has none. -/
noncomputable def slotKinds (known : Set String) (slot : Nat) : Option Kind :=
  if slot < site.method.receiverSlots then some .reference
  else ((Frame.order site.method)[slot - site.method.receiverSlots]?).bind fun name =>
    if name ∈ known then (c.typeOf name).map Ty.kind else none

variable {site c} {known : Set String}

theorem slotKinds_mono {known' : Set String} (hLe : known ⊆ known') {slot : Nat} {kind : Kind}
    (h : slotKinds site c known slot = some kind) : slotKinds site c known' slot = some kind := by
  unfold slotKinds at h ⊢
  split_ifs at h ⊢ with hReceiver
  · exact h
  · obtain ⟨name, hName, hKind⟩ := Option.bind_eq_some_iff.mp h
    split_ifs at hKind with hKnown
    rw [hName, Option.bind_some, if_pos (hLe hKnown)]
    exact hKind

variable (hSuits : site.Suits c)

include hSuits

/-- In an instance method there is a reference in slot 0, whatever else is known. -/
theorem slotKinds_receiver (hInstance : c.isStatic = false) :
    slotKinds site c known 0 = some .reference := by
  refine if_pos ?_
  rw [Method.receiverSlots, hSuits.isStatic, hInstance]
  exact Nat.one_pos

/-- The slot of a known variable holds a value of the kind of its type. No other variable has that
slot. -/
theorem slotKinds_slot {name : String} {slot : UInt16} {ty : Ty} (hSlot : site.slot name = .ok slot)
    (hName : c.typeOf name = some ty) (hKnown : name ∈ known) :
    slotKinds site c known slot.toNat = some ty.kind := by
  obtain ⟨place, hPlace, hNumber, -⟩ := hSuits.lays.mem_of_slot (Site.slot_ok.mp hSlot)
  rw [slotKinds, if_neg (by omega), show slot.toNat - site.method.receiverSlots = place by omega,
    hPlace, Option.bind_some, if_pos hKnown, hName, Option.map_some]

/-- A variable that gets a value is known from then on, and its slot has the kind of its type. -/
theorem update_slotKinds {name : String} {slot : UInt16} {ty : Ty} (hSlot : site.slot name = .ok slot)
    (hName : c.typeOf name = some ty) :
    Function.update (slotKinds site c known) slot.toNat (some ty.kind) =
      slotKinds site c (insert name known) := by
  funext n
  by_cases hSame : n = slot.toNat
  · subst hSame
    rw [Function.update_self, slotKinds_slot hSuits hSlot hName (Set.mem_insert _ _)]
  · rw [Function.update_of_ne hSame]
    unfold slotKinds
    split_ifs with hReceiver
    · rfl
    · cases hOther : (Frame.order site.method)[n - site.method.receiverSlots]? with
      | none => rfl
      | some other =>
          have hNe : other ≠ name := by
            rintro rfl
            have hNumber := hSuits.lays.slot hOther
            rw [Site.slot_ok.mp hSlot, Option.some.injEq] at hNumber
            have hInside := (List.getElem?_eq_some_iff.mp hOther).1
            have hSize := hSuits.lays.lt_size
            rw [hNumber, UInt16.toNat_ofNat_of_lt' (by omega)] at hSame
            omega
          have hIff : other ∈ insert name known ↔ other ∈ known :=
            Set.mem_insert_iff.trans (or_iff_right hNe)
          by_cases hKnown : other ∈ known
          · exact (if_pos hKnown).trans (if_pos (hIff.mpr hKnown)).symm
          · exact (if_neg hKnown).trans (if_neg (mt hIff.mp hKnown)).symm

end Slots

section Selection

variable {site : Site} {c : Context} {p p' : Progress} {code : List Stack.Instr}
  {atLabel : String → Cells} {known : Set String} {rest : List Kind} (hSuits : site.Suits c)

include hSuits

/-- Loading the receiver brings in a reference, from slot 0 of an instance method. -/
theorem turns_self (hInstance : c.isStatic = false) {ty : Ty} (h : site.load (.self ty) = .ok code) :
    Turns atLabel (slotKinds site c known) rest code (.reference :: rest) := by
  obtain ⟨-, rfl⟩ := Site.load_self_ok.mp h
  exact Stack.turns_loadSlot (slotKinds_receiver hSuits hInstance)

/-- Loading an operand needs only the slots of the names in it, and brings in a value of the kind of its
type. -/
theorem turns_load {o : Operand} (ho : o.Typed c) (hReads : ∀ name ∈ o.names, name ∈ known)
    (h : site.load o = .ok code) :
    Turns atLabel (slotKinds site c known) rest code (o.ty.kind :: rest) := by
  induction ho generalizing rest code with
  | int n =>
      rw [Site.load_literal_ok.mp h]
      exact Stack.turns_pushInt n
  | bool b =>
      rw [Site.load_literal_ok.mp h]
      exact Stack.turns_pushInt _
  | «variable» hName =>
      obtain ⟨kind, slot, hKind, hSlot, rfl⟩ := Site.load_variable_ok.mp h
      rw [kindOf_eq hKind]
      exact Stack.turns_loadSlot (slotKinds_slot hSuits hSlot hName (hReads _ List.mem_cons_self))
  | @element array place ty hArray _ _ hInt ih =>
      obtain ⟨kind, slot, placeCode, hKind, hSlot, hPlace, rfl⟩ := Site.load_element_ok.mp h
      have hBase : Turns atLabel (slotKinds site c known) rest [Stack.loadSlot .reference slot]
          (.reference :: rest) :=
        Stack.turns_loadSlot (slotKinds_slot hSuits hSlot hArray (hReads _ List.mem_cons_self))
      have hAt : Turns atLabel (slotKinds site c known) (.reference :: rest) placeCode
          (place.ty.kind :: .reference :: rest) :=
        ih (fun name hName => hReads name (List.mem_cons_of_mem _ hName)) hPlace
      have hItem : Turns atLabel (slotKinds site c known) (.int :: .reference :: rest)
          [.arrayLoad kind] (kind.kind :: rest) := Stack.flows_instr rfl ⟨⟨rest, rfl⟩, nofun⟩ nofun
      rw [hInt] at hAt
      rw [elementKindOf_eq hKind] at hItem
      exact (hBase.append hAt).append hItem
  | self hInstance => exact turns_self hSuits hInstance h

/-- Two integers are loaded with the right one on top, as arithmetic and comparisons take them. -/
theorem turns_ints {left right : Operand} {leftCode rightCode : List Stack.Instr} (hl : left.Typed c)
    (hr : right.Typed c) (hlInt : left.ty = .int32) (hrInt : right.ty = .int32)
    (hReads : ∀ name ∈ left.names ++ right.names, name ∈ known) (hLeft : site.load left = .ok leftCode)
    (hRight : site.load right = .ok rightCode) :
    Turns atLabel (slotKinds site c known) rest (leftCode ++ rightCode) (.int :: .int :: rest) := by
  have hFirst : Turns atLabel (slotKinds site c known) rest leftCode (left.ty.kind :: rest) :=
    turns_load hSuits hl (fun name hName => hReads name (List.mem_append_left _ hName)) hLeft
  have hSecond : Turns atLabel (slotKinds site c known) (.int :: rest) rightCode
      (right.ty.kind :: .int :: rest) :=
    turns_load hSuits hr (fun name hName => hReads name (List.mem_append_right _ hName)) hRight
  rw [hlInt] at hFirst
  rw [hrInt] at hSecond
  exact hFirst.append hSecond

/-- The last of the arguments is on top, so the kinds on the stack are those of the arguments
backwards. -/
theorem turns_loadAll {os : List Operand} (hos : ∀ o ∈ os, o.Typed c)
    (hReads : ∀ name ∈ os.flatMap Operand.names, name ∈ known) (h : site.loadAll os = .ok code) :
    Turns atLabel (slotKinds site c known) rest code ((os.map (·.ty.kind)).reverse ++ rest) := by
  induction os generalizing rest code with
  | nil =>
      rw [Site.loadAll_nil_ok.mp h]
      exact Stack.turns_nil
  | cons o os ih =>
      obtain ⟨first, others, hFirst, hOthers, rfl⟩ := Site.loadAll_cons_ok.mp h
      obtain ⟨ho, hos⟩ := List.forall_mem_cons.mp hos
      have hTail : Turns atLabel (slotKinds site c known) (o.ty.kind :: rest) others _ :=
        ih hos (fun name hName => hReads name (List.mem_append_right _ hName)) hOthers
      rw [List.map_cons, List.reverse_cons, List.append_assoc]
      exact (turns_load hSuits ho (fun name hName => hReads name (List.mem_append_left _ hName))
        hFirst).append hTail

/-- The kind of the value that a call pushes, if it pushes one. It comes to lie on top of what was below
the arguments. -/
def pushedKind (pushes : Bool) (ty : Ty) : List Kind := if pushes then [ty.kind] else []

/-- A receiver, if the invocation has one, and arguments of the kinds that the method takes give way
to its result. -/
theorem turns_invocation {kind : Stack.InvokeKind} {target : Operand} {className method : String}
    {receiverCode : List Stack.Instr} {arguments : List Operand} {ty : Ty} {pushes : Bool}
    (hTarget : target.Typed c ∨ ∃ name, target = .classRef name)
    (hClass : site.scope.classOf target = .ok className) (hPasses : c.Passes target method arguments)
    (hReads : ∀ name ∈ arguments.flatMap Operand.names, name ∈ known)
    (hReceiver : Turns atLabel (slotKinds site c known) rest receiverCode
      ((if kind.hasReceiver then [.reference] else []) ++ rest))
    (h : site.invocation kind className method receiverCode arguments ty = .ok (code, pushes)) :
    Turns atLabel (slotKinds site c known) rest code (pushedKind pushes ty ++ rest) := by
  obtain ⟨argumentCode, hArguments, rfl, rfl⟩ := Site.invocation_ok.mp h
  have hParameters := hSuits.kinds_parameters ty hTarget hClass hPasses
  have hLoads : Turns atLabel (slotKinds site c known) _ argumentCode
      ((arguments.map (·.ty.kind)).reverse ++ ((if kind.hasReceiver then [.reference] else []) ++ rest)) :=
    turns_loadAll hSuits hPasses.typed hReads hArguments
  rw [← List.append_assoc] at hLoads
  refine (hReceiver.append hLoads).append ?_
  rw [pushedKind, ← site.scope.descriptorKind_descriptor ty]
  exact Stack.turns_invoke rfl hParameters

/-- A call that is typed gives way to its result, if it has one. The values below it on the stack stay as
they are. -/
theorem turns_call {kind : CallKind} {receiver : Operand} {method : Option String}
    {arguments : List Operand} {ty : Ty} {pushes : Bool}
    (hYields : (Code.Instr.call kind receiver method arguments ty).Yields c)
    (hReads : ∀ name ∈ (Code.Instr.call kind receiver method arguments ty).names, name ∈ known)
    (h : (site.call (.call kind receiver method arguments ty)).run p = .ok ((code, pushes), p')) :
    Turns atLabel (slotKinds site c known) rest code (pushedKind pushes ty ++ rest) := by
  have hReceiver : ∀ name ∈ receiver.names, name ∈ known :=
    fun name hName => hReads name (List.mem_append_left _ hName)
  have hArguments : ∀ name ∈ arguments.flatMap Operand.names, name ∈ known :=
    fun name hName => hReads name (List.mem_append_right _ hName)
  cases hYields with
  | @newArray receiver size hSize hInt =>
      obtain ⟨hNew, rfl, _⟩ := (Site.call_newArray_run rfl).mp h
      obtain ⟨_, _, sizeCode, ⟨⟩, hLoad, rfl⟩ := Site.newArray_ok.mp hNew
      have hCode : Turns atLabel (slotKinds site c known) rest sizeCode (size.ty.kind :: rest) :=
        turns_load hSuits hSize (fun name hName => hArguments name (by simpa using hName)) hLoad
      rw [hInt] at hCode
      exact hCode.append (Stack.flows_instr rfl ⟨⟨rest, rfl⟩, nofun⟩ nofun)
  | @arrayLength o element ho hArray =>
      obtain ⟨baseCode, hLoad, rfl, rfl, _⟩ := Site.call_arrayLength_run.mp h
      have hCode : Turns atLabel (slotKinds site c known) rest baseCode (receiver.ty.kind :: rest) :=
        turns_load hSuits ho hReceiver hLoad
      rw [hArray] at hCode
      exact hCode.append (Stack.flows_instr rfl ⟨⟨rest, rfl⟩, nofun⟩ nofun)
  | callStatic hPasses =>
      obtain ⟨_, _, hClass, ⟨⟩, hCode, _⟩ := Site.call_invokeStatic_run.mp h
      exact turns_invocation hSuits (.inr ⟨_, rfl⟩) hClass hPasses hArguments Stack.turns_nil hCode
  | callVirtual hTarget hObject hPasses =>
      obtain ⟨_, _, receiverCode, hClass, ⟨⟩, hLoad, hCode, _⟩ := Site.call_invokeVirtual_run.mp h
      have hBase : Turns atLabel (slotKinds site c known) rest receiverCode (receiver.ty.kind :: rest) :=
        turns_load hSuits hTarget hReceiver hLoad
      have hKind : receiver.ty.kind = .reference := by
        cases hTy : receiver.ty <;> rw [hTy] at hObject <;> first | rfl | cases hObject
      rw [hKind] at hBase
      exact turns_invocation hSuits (.inl hTarget) hClass hPasses hArguments hBase hCode

/-- The labels of some comparisons are reached with what comparisons over `bases` need: the stack below
the operands at the first, and the value besides at the second. -/
def ComparisonKinds (atLabel : String → Cells) (bases : Nat → Cells) (first last : Nat) : Prop :=
  ∀ id, first ≤ id → id < last → atLabel (comparisonLabels id).1 = bases id ∧
    atLabel (comparisonLabels id).2 = ⟨.int :: (bases id).stack, (bases id).slots⟩

omit hSuits in
/-- The labels of one instruction and those of the ones after it can be looked at separately, since an
instruction is selected over one stack. -/
theorem ComparisonKinds.split {base : Cells} {bases : Nat → Cells} {first middle last : Nat}
    (hFirst : first ≤ middle) (hLast : middle ≤ last)
    (h : ComparisonKinds atLabel (fun id => if id < middle then base else bases id) first last) :
    ComparisonKinds atLabel (fun _ => base) first middle ∧ ComparisonKinds atLabel bases middle last := by
  refine ⟨fun id hFrom hTo => ?_, fun id hFrom hTo => ?_⟩
  · simpa only [if_pos hTo] using h id hFrom (by omega)
  · simpa only [if_neg (Nat.not_lt.mpr hFrom)] using h id (by omega) hTo

/-- The code of a value needs what its operands need and brings in one value of its kind. Both ways
through a comparison meet with an integer on top. -/
theorem turns_value {i : Code.Instr} (hYields : i.Yields c) (hReads : ∀ name ∈ i.names, name ∈ known)
    (h : (site.value i).run p = .ok (code, p'))
    (hLabels : ComparisonKinds atLabel (fun _ => ⟨rest, slotKinds site c known⟩) p.comparisons
      p'.comparisons) :
    Turns atLabel (slotKinds site c known) rest code (i.valueType.kind :: rest) := by
  cases i with
  | operand o =>
      cases hYields with
      | operand ho => exact turns_load hSuits ho hReads (Site.value_operand_run.mp h).1
  | binary op left right ty =>
      rw [Site.value_binary] at h
      obtain ⟨leftCode, rightCode, hLeft, hRight, hCode⟩ := Site.binary_run.mp h
      have hInt : ty.kind = .int := by cases hYields <;> rfl
      have hBoth : Turns atLabel (slotKinds site c known) rest (leftCode ++ rightCode)
          (.int :: .int :: rest) := by
        cases hYields with
        | arithmetic _ hl hr hlInt hrInt => exact turns_ints hSuits hl hr hlInt hrInt hReads hLeft hRight
        | comparison _ hl hr hlInt hrInt => exact turns_ints hSuits hl hr hlInt hrInt hReads hLeft hRight
      change Turns _ _ _ _ (ty.kind :: rest)
      rw [hInt]
      rcases hCode with ⟨_, _, rfl, rfl⟩ | ⟨_, _, rfl, rfl⟩
      · exact hBoth.append (Stack.flows_instr rfl ⟨⟨rest, rfl⟩, nofun⟩ nofun)
      · obtain ⟨hYes, hStop⟩ := hLabels p.comparisons (Nat.le_refl _) (Nat.lt_succ_self _)
        exact hBoth.append (Stack.turns_comparisonCode hYes hStop)
  | not o ty =>
      obtain ⟨operandCode, hLoad, rfl, _⟩ := Site.value_not_run.mp h
      cases hYields with
      | not ho hBoolean =>
          have hCode : Turns atLabel (slotKinds site c known) rest operandCode (o.ty.kind :: rest) :=
            turns_load hSuits ho hReads hLoad
          rw [hBoolean] at hCode
          have hNot : Turns atLabel (slotKinds site c known) (.int :: rest)
              ([Stack.pushInt 1] ++ [.arithmetic .xor]) (.int :: rest) :=
            (Stack.turns_pushInt 1).append (Stack.flows_instr rfl ⟨⟨rest, rfl⟩, nofun⟩ nofun)
          exact hCode.append hNot
  | getField object field ty =>
      obtain ⟨fieldRef, objectCode, hField, hLoad, rfl, _⟩ := Site.value_getField_run.mp h
      obtain ⟨className, _, rfl⟩ := ClassScope.fieldRef_ok.mp hField
      cases hYields with
      | getField hInstance =>
          have hRead : Turns atLabel (slotKinds site c known) (.reference :: rest)
              [.getField ⟨className, field, site.scope.descriptor ty⟩]
              (descriptorKind (site.scope.descriptor ty) :: rest) :=
            Stack.flows_instr rfl ⟨⟨rest, rfl⟩, nofun⟩ nofun
          rw [site.scope.descriptorKind_descriptor] at hRead
          exact (turns_self hSuits hInstance hLoad).append hRead
  | call kind receiver method arguments ty =>
      rw [Site.value_call, Site.callValue_run] at h
      exact turns_call hSuits hYields hReads h
  | _ => cases hYields

/-- What there is between instructions where the variables in `known` are assigned: an empty stack, and
the slots of these variables. -/
noncomputable def betweenInstrs (site : Site) (c : Context) (known : Set String) : Cells :=
  ⟨[], slotKinds site c known⟩

omit hSuits in
theorem betweenInstrs_mono {known' : Set String} (hLe : known ⊆ known') :
    betweenInstrs site c known ≤ betweenInstrs site c known' :=
  ⟨rfl, fun _ _ => slotKinds_mono hLe⟩

/-- A store takes the value from the stack and makes the variable known, with the kind that the value
has. -/
theorem flows_stored {name : String} {ty : Ty} {slot : UInt16} {kind : Kind}
    (hSlot : site.slot name = .ok slot) (hName : c.typeOf name = some ty) (hKind : kind = ty.kind) :
    kinds.Flows atLabel (some ⟨kind :: rest, slotKinds site c known⟩) [Stack.storeSlot kind slot]
      (some ⟨rest, slotKinds site c (insert name known)⟩) := by
  rw [← update_slotKinds hSuits hSlot hName, ← hKind]
  exact Stack.flows_storeSlot

/-- A conditional jump takes what it tests, and leaves the slots as they are on both ways on. -/
theorem flows_branch {condition : Condition} {target : String} (hTyped : condition.Typed c)
    (hReads : ∀ name ∈ condition.names, name ∈ known)
    (hTarget : atLabel target ≤ betweenInstrs site c known)
    (h : site.branch condition target = .ok code) :
    kinds.Flows atLabel (some (betweenInstrs site c known)) code (some (betweenInstrs site c known)) := by
  cases hTyped with
  | @single o ho hBoolean =>
      obtain ⟨operandCode, hLoad, rfl⟩ := Site.branch_single_ok.mp h
      have hCode : Turns atLabel (slotKinds site c known) [] operandCode [o.ty.kind] :=
        turns_load hSuits ho hReads hLoad
      rw [hBoolean] at hCode
      refine Analysis.Flows.append hCode (Stack.flows_instr rfl ⟨⟨[], rfl⟩, nofun⟩ ?_)
      rintro _ ⟨⟩
      exact hTarget
  | compare hOp hl hr hlInt hrInt =>
      obtain ⟨_, leftCode, rightCode, _, hLeft, hRight, rfl⟩ := Site.branch_compare_ok.mp h
      refine Analysis.Flows.append (turns_ints hSuits hl hr hlInt hrInt hReads hLeft hRight)
        (Stack.flows_instr rfl ⟨⟨[], rfl⟩, nofun⟩ ?_)
      rintro _ ⟨⟩
      exact hTarget

/-- A method returns values of the kind of its result. -/
theorem flows_ret {value : Option Operand} {ty : Ty} (hTyped : (Code.Instr.ret value ty).Typed c)
    (hReads : ∀ name ∈ (Code.Instr.ret value ty).names, name ∈ known)
    (h : site.ret value ty = .ok code) :
    kinds.Flows atLabel (some (betweenInstrs site c known)) code none := by
  cases value with
  | none =>
      rw [Site.ret_none_ok.mp h]
      exact Stack.flows_instr rfl ⟨⟨[], rfl⟩, nofun⟩ nofun
  | some o =>
      obtain ⟨valueCode, kind, hLoad, hKind, rfl⟩ := Site.ret_some_ok.mp h
      obtain ⟨ho, hSame⟩ : o.Typed c ∧ kind = o.ty.kind := by
        rw [kindOf_eq hKind]
        cases hTyped with
        | ret ho hFits => exact ⟨ho, hFits.kind.symm⟩
        | eval hYields => cases hYields
      have hCode : Turns atLabel (slotKinds site c known) [] valueCode [o.ty.kind] :=
        turns_load hSuits ho hReads hLoad
      rw [hSame]
      exact Analysis.Flows.append hCode (Stack.flows_instr rfl ⟨⟨[], rfl⟩, nofun⟩ nofun)

omit hSuits in
/-- The constructor call takes the object and leaves nothing. -/
theorem turns_init {slots : Nat → Option Kind} (instanceClass : String) :
    Turns atLabel slots (.reference :: rest) [.invoke .special ⟨instanceClass, "<init>", [], "V"⟩] rest :=
  Stack.flows_instr rfl ⟨⟨rest, rfl⟩, nofun⟩ nofun

/-- The new object is in its variable, and on the stack for its constructor. -/
theorem flows_newObject {name className : String} (hName : c.typeOf name = some (.object className))
    (hPending : p.pending = []) (h : (site.instr (allocation name className)).run p = .ok (code, p')) :
    kinds.Flows atLabel (some (betweenInstrs site c known)) code
      (some ⟨[.reference], slotKinds site c (insert name known)⟩) := by
  obtain ⟨-, slot, instanceClass, hSlot, _, rfl⟩ := allocation_run hPending h
  have hNew : Turns atLabel (slotKinds site c known) [] [.new instanceClass] [.reference] :=
    Stack.flows_instr rfl ⟨List.nil_prefix, nofun⟩ nofun
  have hDup : Turns atLabel (slotKinds site c known) [.reference] [.dup] [.reference, .reference] :=
    Stack.flows_instr rfl ⟨⟨[], rfl⟩, nofun⟩ nofun
  exact Analysis.Flows.append (hNew.append hDup) (flows_stored hSuits hSlot hName rfl)

/-- A call that is made for what it does leaves no value. -/
theorem flows_callStatement {kind : CallKind} {receiver : Operand} {method : Option String}
    {arguments : List Operand} {ty : Ty}
    (hYields : (Code.Instr.call kind receiver method arguments ty).Yields c)
    (hReads : ∀ name ∈ (Code.Instr.call kind receiver method arguments ty).names, name ∈ known)
    (h : (site.callStatement (.call kind receiver method arguments ty)).run p = .ok (code, p')) :
    kinds.Flows atLabel (some (betweenInstrs site c known)) code (some (betweenInstrs site c known)) := by
  obtain ⟨callCode, pushes, hCall, rfl⟩ := Site.callStatement_run.mp h
  have hCode : Turns atLabel (slotKinds site c known) [] callCode (pushedKind pushes ty ++ []) :=
    turns_call hSuits hYields hReads hCall
  cases pushes with
  | true => exact hCode.append (Stack.flows_instr rfl ⟨⟨[], rfl⟩, nofun⟩ nofun)
  | false => exact hCode

/-- Writing a field of the receiver takes both the object and the value, and no slot changes. -/
theorem flows_putField {field : String} {ty : Ty} {o : Operand} (hInstance : c.isStatic = false)
    (ho : o.Typed c) (hFits : o.ty.Fits ty) (hReads : ∀ name ∈ o.names, name ∈ known)
    (h : (site.instr (.putField (.self (.object c.className)) field ty o)).run p = .ok (code, p')) :
    kinds.Flows atLabel (some (betweenInstrs site c known)) code (some (betweenInstrs site c known)) := by
  obtain ⟨fieldRef, objectCode, valueCode, hField, hObject, hValue, rfl, _⟩ :=
    Site.instr_putField_run.mp h
  obtain ⟨className, _, rfl⟩ := ClassScope.fieldRef_ok.mp hField
  have hBase : Turns atLabel (slotKinds site c known) [] objectCode [.reference] :=
    turns_self hSuits hInstance hObject
  have hCode : Turns atLabel (slotKinds site c known) [.reference] valueCode [o.ty.kind, .reference] :=
    turns_load hSuits ho hReads hValue
  have hWrite : Turns atLabel (slotKinds site c known)
      [descriptorKind (site.scope.descriptor ty), .reference]
      [.putField ⟨className, field, site.scope.descriptor ty⟩] [] :=
    Stack.flows_instr rfl ⟨⟨[], rfl⟩, nofun⟩ nofun
  rw [site.scope.descriptorKind_descriptor, ← hFits.kind] at hWrite
  exact (hBase.append hCode).append hWrite

/-- A value that nothing uses is taken from the stack again. -/
theorem flows_mere {i : Code.Instr} (hMere : Site.isMere i = true) (hYields : i.Yields c)
    (hReads : ∀ name ∈ i.names, name ∈ known) (h : (site.instr i).run p = .ok (code, p'))
    (hLabels : ComparisonKinds atLabel (fun _ => betweenInstrs site c known) p.comparisons
      p'.comparisons) :
    kinds.Flows atLabel (some (betweenInstrs site c known)) code (some (betweenInstrs site c known)) := by
  obtain ⟨valueCode, hValue, rfl⟩ := (Site.instr_mere_run hMere).mp h
  have hCode : Turns atLabel (slotKinds site c known) [] valueCode [i.valueType.kind] :=
    turns_value hSuits hYields hReads hValue hLabels
  exact hCode.append (Stack.flows_instr rfl ⟨⟨[], rfl⟩, nofun⟩ nofun)

/-- Assigning a variable makes it known. -/
theorem flows_assign {name : String} {ty : Ty} {rhs : Code.Instr} (hName : c.typeOf name = some ty)
    (hYields : rhs.Yields c) (hFits : rhs.valueType.Fits ty) (hReads : ∀ name ∈ rhs.names, name ∈ known)
    (h : (site.assign (.variable name ty) rhs).run p = .ok (code, p'))
    (hLabels : ComparisonKinds atLabel (fun _ => betweenInstrs site c known) p.comparisons
      p'.comparisons) :
    kinds.Flows atLabel (some (betweenInstrs site c known)) code
      (some (betweenInstrs site c (insert name known))) := by
  obtain ⟨slot, valueCode, kind, hSlot, hValue, hKind, rfl⟩ :=
    (Site.assign_variable_run (Site.allocated?_of_yields hYields)).mp h
  have hCode : Turns atLabel (slotKinds site c known) [] valueCode [rhs.valueType.kind] :=
    turns_value hSuits hYields hReads hValue hLabels
  rw [hFits.kind, ← kindOf_eq hKind] at hCode
  exact Analysis.Flows.append hCode (flows_stored hSuits hSlot hName (kindOf_eq hKind))

/-- Storing an item of an array, whose value is computed over the array and the place. -/
theorem flows_store {array : String} {place : Operand} {ty : Ty} {rhs : Code.Instr}
    (hArray : c.typeOf array = some (.array ty)) (hPlace : place.Typed c) (hInt : place.ty = .int32)
    (hYields : rhs.Yields c) (hFits : rhs.valueType.Fits ty)
    (hReads : ∀ name ∈ array :: place.names ++ rhs.names, name ∈ known)
    (h : (site.assign (.element array place ty) rhs).run p = .ok (code, p'))
    (hLabels : ComparisonKinds atLabel (fun _ => ⟨[.int, .reference], slotKinds site c known⟩)
      p.comparisons p'.comparisons) :
    kinds.Flows atLabel (some (betweenInstrs site c known)) code (some (betweenInstrs site c known)) := by
  obtain ⟨kind, slot, placeCode, valueCode, hKind, hSlot, hPlaceCode, hValue, rfl⟩ :=
    Site.assign_element_run.mp h
  have hBase : Turns atLabel (slotKinds site c known) [] [Stack.loadSlot .reference slot] [.reference] :=
    Stack.turns_loadSlot (slotKinds_slot hSuits hSlot hArray (hReads _ List.mem_cons_self))
  have hAt : Turns atLabel (slotKinds site c known) [.reference] placeCode [place.ty.kind, .reference] :=
    turns_load hSuits hPlace (fun name hName => hReads name (List.mem_cons_of_mem _
      (List.mem_append_left _ hName))) hPlaceCode
  have hCode : Turns atLabel (slotKinds site c known) [.int, .reference] valueCode
      [rhs.valueType.kind, .int, .reference] :=
    turns_value hSuits hYields (fun name hName => hReads name (List.mem_cons_of_mem _
      (List.mem_append_right _ hName))) hValue hLabels
  have hStore : Turns atLabel (slotKinds site c known) [kind.kind, .int, .reference] [.arrayStore kind] [] :=
    Stack.flows_instr rfl ⟨⟨[], rfl⟩, nofun⟩ nofun
  rw [hInt] at hAt
  rw [elementKindOf_eq hKind, ← hFits.kind] at hStore
  exact ((hBase.append hAt).append hCode).append hStore

/-- Code for an instruction that is neither a label nor an allocation, where what it reads is known. -/
theorem flows_selected {i : Code.Instr} (hTyped : i.Typed c) (hPlain : i.isPlain = true)
    (hLabel : i.label? = none) (hReads : ∀ name ∈ i.reads, name ∈ known)
    (h : (site.instr i).run p = .ok (code, p')) :
    ∃ base, ∀ atLabel, ComparisonKinds atLabel (fun _ => base) p.comparisons p'.comparisons →
      (∀ l, i.target? = some l → atLabel l.text ≤ betweenInstrs site c known) →
      kinds.Flows atLabel (some (betweenInstrs site c known)) code
        (if Code.control.goesOn i = true then some (betweenInstrs site c (assigned.effect known i))
          else none) := by
  cases hTyped with
  | assign hName hYields _ hFits =>
      refine ⟨betweenInstrs site c known, fun atLabel hLabels _ => ?_⟩
      rw [Code.effect_assign]
      exact flows_assign hSuits hName hYields hFits hReads h hLabels
  | store hArray _ hPlace hInt hYields hFits =>
      refine ⟨⟨[.int, .reference], slotKinds site c known⟩, fun atLabel hLabels _ => ?_⟩
      rw [Code.effect_of_no_write rfl]
      exact flows_store hSuits hArray hPlace hInt hYields hFits hReads h hLabels
  | allocation | construction => cases hPlain
  | putField hInstance ho hFits =>
      refine ⟨betweenInstrs site c known, fun atLabel _ _ => ?_⟩
      rw [Code.effect_of_no_write rfl]
      exact flows_putField hSuits hInstance ho hFits hReads h
  | retNone hVoid =>
      exact ⟨betweenInstrs site c known, fun atLabel _ _ =>
        flows_ret hSuits (.retNone hVoid) hReads (Site.instr_ret_run.mp h).1⟩
  | ret ho hFits =>
      exact ⟨betweenInstrs site c known, fun atLabel _ _ =>
        flows_ret hSuits (.ret ho hFits) hReads (Site.instr_ret_run.mp h).1⟩
  | @branch condition target hCondition =>
      refine ⟨betweenInstrs site c known, fun atLabel _ hTarget => ?_⟩
      rw [Code.effect_of_no_write rfl]
      exact flows_branch hSuits hCondition hReads (hTarget target rfl) (Site.instr_branch_run.mp h).1
  | goto target =>
      refine ⟨betweenInstrs site c known, fun atLabel _ hTarget => ?_⟩
      obtain ⟨rfl, -⟩ := Site.instr_goto_run.mp h
      refine Stack.flows_instr rfl ⟨List.nil_prefix, nofun⟩ ?_
      rintro _ ⟨⟩
      exact hTarget target rfl
  | label l => cases hLabel
  | eval hYields =>
      refine ⟨betweenInstrs site c known, fun atLabel hLabels _ => ?_⟩
      cases i with
      | call kind receiver method arguments ty =>
          rw [Code.effect_of_no_write rfl]
          exact flows_callStatement hSuits hYields hReads h
      | operand _ | binary _ _ _ _ | not _ _ | getField _ _ _ =>
          rw [Code.effect_of_no_write rfl]
          exact flows_mere hSuits rfl hYields hReads h hLabels
      | _ => cases hYields

omit hSuits in
/-- Code that may also be entered where control does not come. -/
theorem flows_of_reached {first : Cells} {last state : Option Cells}
    (h : kinds.Flows atLabel (some first) code last) (hState : ∀ cells, state = some cells → cells = first) :
    ∃ state', kinds.Flows atLabel state code state' ∧ ∀ cells, state' = some cells → last = some cells := by
  cases state with
  | none => exact h.unreached
  | some cells =>
      obtain rfl := hState cells rfl
      exact ⟨last, h, fun _ hLast => hLast⟩

omit hSuits in
/-- What is known after an instruction, taking everything to be known where control does not come. -/
theorem getD_next {atSource : Label → Set String} {known : Option (Set String)} {i : Code.Instr}
    (hLabel : i.label? = none) (hGoesOn : Code.control.goesOn i = true) :
    (assigned.next atSource known i).getD Set.univ = assigned.effect (known.getD Set.univ) i := by
  cases known with
  | some known => rw [Code.next_plain hLabel hGoesOn, Option.getD_some, Option.getD_some]
  | none =>
      have hNext : assigned.next atSource none i = none := by
        rw [Analysis.next, Analysis.before, show assigned.label? i = none from hLabel, Option.map_none,
          ite_self]
      rw [hNext]
      exact (Set.eq_univ_of_forall fun _ => .inl (Set.mem_univ _)).symm

/-- What there is between instructions, if control comes there at all. Where no instruction comes, code
may still be entered as if all variables were assigned. -/
def Meets (site : Site) (c : Context) (known : Option (Set String)) (state : Option Cells) : Prop :=
  ∀ cells, state = some cells → cells = betweenInstrs site c (known.getD Set.univ)

omit hSuits in
/-- A label may be come to from before or by a jump. What is known at the label is known on each of these
ways. -/
theorem meets_label {atSource : Label → Set String} {before : Option (Set String)} {l : Label}
    {state : Option Cells} (hFits : assigned.Fits atSource before (.label l))
    (hText : atLabel l.text = betweenInstrs site c (atSource l)) (hState : Meets site c before state) :
    kinds.Flows atLabel state [.label l.text] (some (atLabel l.text)) ∧
      Meets site c (assigned.next atSource before (.label l)) (some (atLabel l.text)) := by
  refine ⟨Stack.flows_label fun cells hCells => ?_, ?_⟩
  · rw [hText, hState cells hCells]
    refine betweenInstrs_mono ?_
    cases before with
    | none => exact Set.subset_univ _
    | some known => exact hFits.enters l known rfl rfl
  · rintro _ ⟨⟩
    have hNext : assigned.next atSource before (.label l) = some (atSource l) :=
      congrArg some (Code.effect_of_no_write rfl)
    rw [hText, hNext, Option.getD_some]

/-- An instruction keeps what there is between instructions in step with the variables assigned. -/
theorem meets_single {i : Code.Instr} (hTyped : i.Typed c) (hPlain : i.isPlain = true)
    {atSource : Label → Set String} {before : Option (Set String)}
    (hFits : assigned.Fits atSource before i)
    (h : (site.instr i).run p = .ok (code, p')) :
    ∃ base, ∀ atLabel, ComparisonKinds atLabel (fun _ => base) p.comparisons p'.comparisons →
      (∀ l, atLabel l.text = betweenInstrs site c (atSource l)) → ∀ state, Meets site c before state →
      ∃ state', kinds.Flows atLabel state code state' ∧
        Meets site c (assigned.next atSource before i) state' := by
  cases hLabel : i.label? with
  | some l =>
      obtain rfl : i = .label l := by cases i <;> first | (cases hLabel; rfl) | cases hLabel
      obtain ⟨rfl, -⟩ := Site.instr_label_run.mp h
      exact ⟨betweenInstrs site c ∅, fun atLabel _ hTexts state hState =>
        ⟨_, meets_label hFits (hTexts l) hState⟩⟩
  | none =>
      have hBefore : assigned.before atSource before i = before := by
        rw [Analysis.before, show assigned.label? i = none from hLabel]
      have hReads : ∀ name ∈ i.reads, name ∈ before.getD Set.univ := by
        cases before with
        | none => exact fun name _ => Set.mem_univ name
        | some known => exact hFits.needs known hBefore
      obtain ⟨base, hFlows⟩ := flows_selected hSuits hTyped hPlain hLabel hReads h
      refine ⟨base, fun atLabel hLabels hTexts state hState => ?_⟩
      have hTargets : ∀ l, i.target? = some l →
          atLabel l.text ≤ betweenInstrs site c (before.getD Set.univ) := by
        intro l hTarget
        rw [hTexts]
        refine betweenInstrs_mono ?_
        cases before with
        | none => exact Set.subset_univ _
        | some known =>
            have hNoWrite : i.writes? = none := by cases i <;> first | rfl | cases hTarget
            have hJumps := hFits.jumps l known hTarget hBefore
            rwa [Code.effect_of_no_write hNoWrite] at hJumps
      obtain ⟨state', hCode, hState'⟩ := flows_of_reached (hFlows atLabel hLabels hTargets) hState
      refine ⟨state', hCode, fun cells hCells => ?_⟩
      have hLast := hState' cells hCells
      split_ifs at hLast with hGoesOn
      rw [getD_next hLabel hGoesOn]
      exact (Option.some.inj hLast).symm

/-- An object that is made and constructed leaves nothing on the stack. -/
theorem meets_object {name className : String} (hName : c.typeOf name = some (.object className))
    {atSource : Label → Set String} {before : Option (Set String)} {p₁ : Progress}
    {second : List Stack.Instr} (hPending : p.pending = [])
    (h : (site.instr (allocation name className)).run p = .ok (code, p₁))
    (hSecond : (site.instr (construction name className)).run p₁ = .ok (second, p')) {state : Option Cells}
    (hState : Meets site c before state) :
    ∃ state', kinds.Flows atLabel state (code ++ second) state' ∧
      Meets site c (assigned.next atSource (assigned.next atSource before (allocation name className))
        (construction name className)) state' := by
  obtain ⟨rfl, -⟩ := allocation_run hPending h
  obtain ⟨-, instanceClass, -, rfl⟩ := construction_run rfl hSecond
  have hNew : kinds.Flows atLabel (some (betweenInstrs site c (before.getD Set.univ))) code _ :=
    flows_newObject hSuits hName hPending h
  have hBoth := hNew.append (turns_init instanceClass)
  obtain ⟨state', hCode, hState'⟩ := flows_of_reached hBoth hState
  refine ⟨state', hCode, fun cells hCells => ?_⟩
  rw [getD_next rfl rfl, getD_next rfl rfl, Code.effect_of_no_write rfl]
  rw [allocation, Code.effect_assign]
  exact (Option.some.inj (hState' cells hCells)).symm

/-- The code of a body whose variables are assigned before they are read: between instructions there is
nothing on the stack, and the variables assigned so far hold values of their kinds. -/
theorem flows_codeOf {source : List Code.Instr} (hComplete : Complete source)
    (hTyped : ∀ i ∈ source, i.Typed c) {atSource : Label → Set String}
    {before after : Option (Set String)} (hAssigned : assigned.Flows atSource before source after)
    (hPending : p.pending = []) (h : (codeOf site source).run p = .ok (code, p')) :
    ∃ bases, ∀ atLabel, ComparisonKinds atLabel bases p.comparisons p'.comparisons →
      (∀ l, atLabel l.text = betweenInstrs site c (atSource l)) → ∀ state, Meets site c before state →
      ∃ state', kinds.Flows atLabel state code state' := by
  induction hComplete generalizing p code before with
  | nil =>
      obtain ⟨rfl, rfl⟩ := codeOf_nil_run.mp h
      exact ⟨fun _ => betweenInstrs site c ∅, fun atLabel _ _ state _ => ⟨state, .nil _⟩⟩
  | @single i rest hPlain hRest ih =>
      obtain ⟨first, p₁, others, hFirst, hOthers, rfl⟩ := codeOf_cons_run.mp h
      obtain ⟨hHead, hTail⟩ := List.forall_mem_cons.mp hTyped
      obtain ⟨hPending₁, -⟩ := moves_instr hPending hPlain hFirst
      cases hAssigned with
      | cons hFits hAssigned =>
          obtain ⟨base, hMeets⟩ := meets_single hSuits hHead hPlain hFits hFirst
          obtain ⟨bases, hBody⟩ := ih hTail hAssigned hPending₁ hOthers
          refine ⟨fun id => if id < p₁.comparisons then base else bases id, ?_⟩
          intro atLabel hLabels hTexts state hState
          obtain ⟨hOwn, hLater⟩ := hLabels.split (emitted_instr hFirst).le (emitted_codeOf hOthers).le
          obtain ⟨state₁, hCode, hState₁⟩ := hMeets atLabel hOwn hTexts state hState
          obtain ⟨state', hOthersCode⟩ := hBody atLabel hLater hTexts state₁ hState₁
          exact ⟨state', hCode.append hOthersCode⟩
  | @object name className rest hRest ih =>
      obtain ⟨first, p₁, _, hFirst, hMore, rfl⟩ := codeOf_cons_run.mp h
      obtain ⟨second, p₂, others, hSecond, hOthers, rfl⟩ := codeOf_cons_run.mp hMore
      obtain ⟨hHead, hTyped⟩ := List.forall_mem_cons.mp hTyped
      obtain ⟨-, hTail⟩ := List.forall_mem_cons.mp hTyped
      have hName : c.typeOf name = some (.object className) := hHead.typeOf_allocation
      cases hAssigned with
      | cons _ hAssigned =>
      cases hAssigned with
      | cons _ hAssigned =>
          obtain ⟨hAllocated, -⟩ := allocation_run hPending hFirst
          obtain ⟨rfl, -⟩ := construction_run (congrArg Progress.pending hAllocated) hSecond
          obtain ⟨bases, hBody⟩ := ih hTail hAssigned rfl hOthers
          refine ⟨bases, fun atLabel hLabels hTexts state hState => ?_⟩
          have hComparisons : p₁.comparisons = p.comparisons := by rw [hAllocated]
          obtain ⟨state₁, hCode, hState₁⟩ := meets_object hSuits hName hPending hFirst hSecond hState
          obtain ⟨state', hOthersCode⟩ := hBody atLabel (hComparisons ▸ hLabels) hTexts state₁ hState₁
          exact ⟨state', List.append_assoc .. ▸ hCode.append hOthersCode⟩

end Selection

end MiniJava.Assembly
