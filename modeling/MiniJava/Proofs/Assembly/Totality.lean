import MiniJava.Proofs.Assembly.Balance
import MiniJava.Proofs.Assembly.Slots
import MiniJava.Proofs.Lowering.Totality

/-! Selection succeeds for the code of well-typed programs: there is stack code for every instruction
that lowering makes, and it fails only where a class file cannot state a number of slots or a depth. -/

namespace MiniJava.Assembly

open Code (CallKind Condition Context Method Operand Ty)
open Lowering (allocation construction)
open Stack (ElementKind Kind)

section Types

variable {ty : Ty}

theorem kindOf_total (h : ty.isVoid = false) : ∃ kind, kindOf ty = .ok kind := by
  cases ty with
  | void => cases h
  | _ => exact ⟨_, rfl⟩

/-- Arrays are made of integers, booleans or strings and objects, each of which has a kind for items. -/
theorem elementKindOf_total (h : ty.isElementary = true) : ∃ kind, elementKindOf ty = .ok kind := by
  cases ty with
  | void | array => cases h
  | _ => exact ⟨_, rfl⟩

theorem comparisonOf_total {op : Code.BinaryOp} (h : op.isComparison = true) :
    ∃ comparison, comparisonOf op = .ok comparison := by
  cases op <;> first | exact ⟨_, rfl⟩ | cases h

theorem arithmetic?_isSome {op : Code.BinaryOp} (h : op.isComparison = false) :
    ∃ arithmetic, Site.arithmetic? op = some arithmetic := by
  cases op <;> first | exact ⟨_, rfl⟩ | cases h

namespace ClassScope

variable (scope : ClassScope)

/-- The types that are no references have descriptors that no other types have, for those of references
begin with a sign of their own. -/
theorem descriptor_eq_iff {basic : Ty} (hBasic : basic = .int32 ∨ basic = .boolean ∨ basic = .void) :
    scope.descriptor ty = scope.descriptor basic ↔ ty = basic := by
  have hOther (c : Char) (s : String) (hc : c ∉ ['I', 'Z', 'V']) :
      String.singleton c ++ s ≠ scope.descriptor basic := by
    intro hSame
    have hHead : some c = (scope.descriptor basic).toList.head? := by
      rw [← hSame, String.toList_append, String.toList_singleton]
      rfl
    rcases hBasic with rfl | rfl | rfl <;> simp [descriptor] at hHead <;> simp [hHead] at hc
  refine ⟨fun hEq => ?_, fun hEq => hEq ▸ rfl⟩
  cases ty with
  | int32 | boolean | void =>
      rcases hBasic with rfl | rfl | rfl <;> first | rfl | simp [descriptor] at hEq
  | string | object name =>
      rw [descriptor, String.append_assoc] at hEq
      exact (hOther 'L' _ (by decide) hEq).elim
  | array element => exact (hOther '[' _ (by decide) hEq).elim

/-- Only void has the descriptor of void. So whether an invocation pushes a value can be told from its
type. -/
theorem descriptor_eq_void : scope.descriptor ty = "V" ↔ ty.isVoid = true := by
  have hVoid : scope.descriptor ty = scope.descriptor .void ↔ ty = .void :=
    scope.descriptor_eq_iff (.inr (.inr rfl))
  refine hVoid.trans ?_
  cases ty <;> simp [Ty.isVoid]

/-- Whether a method returns a value is read off the descriptor of its result, which is that of void for
void alone. -/
theorem returnsValue_methodRef (className name : String) (arguments : List Operand) (result : Ty) :
    (scope.methodRef className name arguments result).returnsValue = !result.isVoid := by
  rw [Stack.MethodRef.returnsValue, methodRef, decide_not]
  refine congrArg (!·) (Bool.eq_iff_iff.mpr ?_)
  rw [decide_eq_true_eq]
  exact scope.descriptor_eq_void

theorem classOf_total {o : Operand} (h : o.ty.isObject = true) :
    ∃ className, scope.classOf o = .ok className := by
  cases o with
  | self ty | classRef name => exact ⟨_, rfl⟩
  | literal _ ty | «variable» _ ty | element _ _ ty =>
      cases ty <;> first | exact ⟨_, rfl⟩ | cases h

end ClassScope

end Types

namespace Site

variable {site : Site} {c : Context} (hStatic : site.method.isStatic = c.isStatic)

/-- The variables of an operand have slots. A frame made from a method holds those of all its
operands. -/
def Holds (site : Site) (o : Operand) : Prop := ∀ name, o.Mentions name → ∃ slot, site.slot name = .ok slot

/-- The variables of an instruction have slots, whether it reads them or stores into them. -/
def HoldsAll (site : Site) (i : Code.Instr) : Prop :=
  ∀ name, i.Mentions name → ∃ slot, site.slot name = .ok slot

include hStatic

theorem self_total (hInstance : c.isStatic = false) {ty : Ty} :
    ∃ code, site.load (.self ty) = .ok code :=
  ⟨_, load_self_ok.mpr ⟨hStatic.trans hInstance, rfl⟩⟩

theorem load_total {o : Operand} (h : o.Typed c) (hSlots : site.Holds o) :
    ∃ code, site.load o = .ok code := by
  induction h with
  | int n => exact ⟨_, rfl⟩
  | bool b => exact ⟨_, rfl⟩
  | «variable» _ hValue =>
      obtain ⟨kind, hKind⟩ := kindOf_total hValue
      obtain ⟨slot, hSlot⟩ := hSlots _ (.value _)
      exact ⟨_, load_variable_ok.mpr ⟨kind, slot, hKind, hSlot, rfl⟩⟩
  | element _ hElementary _ _ ih =>
      obtain ⟨kind, hKind⟩ := elementKindOf_total hElementary
      obtain ⟨slot, hSlot⟩ := hSlots _ (.array _ _)
      obtain ⟨placeCode, hPlace⟩ := ih fun name hName => hSlots name (.place hName)
      exact ⟨_, load_element_ok.mpr ⟨kind, slot, placeCode, hKind, hSlot, hPlace, rfl⟩⟩
  | self hInstance => exact self_total hStatic hInstance

theorem loadAll_total {os : List Operand} (hos : ∀ o ∈ os, o.Typed c)
    (hSlots : ∀ o ∈ os, site.Holds o) : ∃ code, site.loadAll os = .ok code := by
  induction os with
  | nil => exact ⟨_, loadAll_nil_ok.mpr rfl⟩
  | cons o rest ih =>
      obtain ⟨hHead, hRest⟩ := List.forall_mem_cons.mp hos
      obtain ⟨hHeadSlots, hRestSlots⟩ := List.forall_mem_cons.mp hSlots
      obtain ⟨first, hFirst⟩ := load_total hStatic hHead hHeadSlots
      obtain ⟨others, hOthers⟩ := ih hRest hRestSlots
      exact ⟨_, loadAll_cons_ok.mpr ⟨first, others, hFirst, hOthers, rfl⟩⟩

/-- An invocation with typed arguments is selected, and pushes a value unless its type is void. -/
theorem invocation_total (kind : Stack.InvokeKind) (className name : String)
    (receiverCode : List Stack.Instr) (ty : Ty) {arguments : List Operand}
    (hArguments : ∀ o ∈ arguments, o.Typed c) (hSlots : ∀ o ∈ arguments, site.Holds o) :
    ∃ code, site.invocation kind className name receiverCode arguments ty = .ok (code, !ty.isVoid) := by
  obtain ⟨argumentCode, hLoad⟩ := loadAll_total hStatic hArguments hSlots
  exact ⟨_, invocation_ok.mpr ⟨argumentCode, hLoad, rfl, (site.scope.returnsValue_methodRef ..).symm⟩⟩

/-- A call is selected, and pushes a value unless it is of void type. What it asks of its class is there
in well-typed code. -/
theorem call_total {kind : CallKind} {receiver : Operand} {method : Option String}
    {arguments : List Operand} {ty : Ty} (h : (Code.Instr.call kind receiver method arguments ty).Yields c)
    (hSlots : site.HoldsAll (.call kind receiver method arguments ty)) (p : Progress) :
    ∃ code p', (site.call (.call kind receiver method arguments ty)).run p =
      .ok ((code, !ty.isVoid), p') := by
  have hReceiver : site.Holds receiver := fun name hName => hSlots name (.receiver hName)
  have hArguments : ∀ o ∈ arguments, site.Holds o :=
    fun o ho name hName => hSlots name (.argument ho hName)
  cases h with
  | newArray hSize =>
      obtain ⟨sizeCode, hLoad⟩ := load_total hStatic hSize (hArguments _ List.mem_cons_self)
      exact ⟨_, p, (call_newArray_run rfl).mpr
        ⟨newArray_ok.mpr ⟨rfl, _, sizeCode, rfl, hLoad, rfl⟩, rfl, rfl⟩⟩
  | arrayLength ho =>
      obtain ⟨code, hLoad⟩ := load_total hStatic ho hReceiver
      exact ⟨_, p, call_arrayLength_run.mpr ⟨code, hLoad, rfl, rfl, rfl⟩⟩
  | callStatic hPasses =>
      obtain ⟨code, hCode⟩ := invocation_total hStatic _ _ _ _ _ hPasses.typed hArguments
      exact ⟨code, p, call_invokeStatic_run.mpr ⟨_, _, rfl, rfl, hCode, rfl⟩⟩
  | callVirtual hTarget hObject hPasses =>
      obtain ⟨className, hClass⟩ := site.scope.classOf_total hObject
      obtain ⟨receiverCode, hLoad⟩ := load_total hStatic hTarget hReceiver
      obtain ⟨code, hCode⟩ := invocation_total hStatic _ _ _ _ _ hPasses.typed hArguments
      exact ⟨code, p, call_invokeVirtual_run.mpr ⟨className, _, receiverCode, hClass, rfl, hLoad, hCode, rfl⟩⟩

/-- An instruction that yields a value is selected where the value is used, in whatever state the
selection is. -/
theorem value_total {i : Code.Instr} (h : i.Yields c) (hVoid : i.valueType.isVoid = false)
    (hSlots : site.HoldsAll i) (p : Progress) : ∃ code p', (site.value i).run p = .ok (code, p') := by
  cases i with
  | operand o =>
      cases h with
      | operand ho =>
          obtain ⟨code, hLoad⟩ := load_total hStatic ho fun name hName => hSlots name (.operand hName)
          exact ⟨code, p, value_operand_run.mpr ⟨hLoad, rfl⟩⟩
  | binary op left right ty =>
      have hLeftSlots : site.Holds left := fun name hName => hSlots name (.left hName)
      have hRightSlots : site.Holds right := fun name hName => hSlots name (.right hName)
      cases h with
      | arithmetic hOp hLeft hRight =>
          obtain ⟨leftCode, hLeft⟩ := load_total hStatic hLeft hLeftSlots
          obtain ⟨rightCode, hRight⟩ := load_total hStatic hRight hRightSlots
          obtain ⟨arithmetic, hArithmetic⟩ := arithmetic?_isSome hOp
          exact ⟨_, p, binary_run.mpr
            ⟨leftCode, rightCode, hLeft, hRight, .inl ⟨arithmetic, hArithmetic, rfl, rfl⟩⟩⟩
      | comparison hOp hLeft hRight =>
          obtain ⟨leftCode, hLeft⟩ := load_total hStatic hLeft hLeftSlots
          obtain ⟨rightCode, hRight⟩ := load_total hStatic hRight hRightSlots
          obtain ⟨comparison, hComparison⟩ := comparisonOf_total hOp
          exact ⟨_, _, binary_run.mpr
            ⟨leftCode, rightCode, hLeft, hRight, .inr ⟨comparison, hComparison, rfl, rfl⟩⟩⟩
  | not o ty =>
      cases h with
      | not ho =>
          obtain ⟨code, hLoad⟩ := load_total hStatic ho fun name hName => hSlots name (.not hName)
          exact ⟨_, p, value_not_run.mpr ⟨code, hLoad, rfl, rfl⟩⟩
  | getField object field ty =>
      cases h with
      | getField hInstance =>
          obtain ⟨code, hLoad⟩ := self_total hStatic hInstance
          exact ⟨_, p, value_getField_run.mpr ⟨_, code, rfl, hLoad, rfl, rfl⟩⟩
  | call kind receiver method arguments ty =>
      obtain ⟨code, p', hCall⟩ := call_total hStatic h hSlots p
      have hPushes : (!ty.isVoid) = true := by rw [show ty.isVoid = false from hVoid]; rfl
      rw [hPushes] at hCall
      exact ⟨code, p', callValue_run.mpr hCall⟩
  | _ => cases h

omit hStatic in
/-- What yields a value makes no object, since an allocation is not a value by itself in well-typed
code. -/
theorem allocated?_of_yields {i : Code.Instr} (h : i.Yields c) : allocated? i = none := by
  cases h <;> rfl

omit hStatic in
/-- An allocation is selected wherever its variable has a slot, and its object waits from then on. -/
theorem allocation_run_of_slot {name className : String} {slot : UInt16} (p : Progress)
    (hSlot : site.slot name = .ok slot) :
    (site.instr (allocation name className)).run p =
      .ok ([.new (qualify site.scope.unit className), .dup, Stack.storeSlot .reference slot],
        { p with pending := name :: p.pending.filter (· ≠ name) }) := by
  rw [allocation, instr_assign]
  exact (assign_newObject_run rfl).mpr ⟨slot, _, hSlot, rfl, rfl, rfl⟩

/-- The constructor call is selected in every state, for its receiver waits or can be loaded. -/
theorem construction_total {name className : String}
    (hSlots : site.HoldsAll (construction name className)) (p : Progress) :
    ∃ code p', (site.instr (construction name className)).run p = .ok (code, p') := by
  obtain ⟨slot, hSlot⟩ := hSlots name (.receiver (.value _))
  have hLoad : site.load (.variable name (.object className)) = .ok [Stack.loadSlot .reference slot] :=
    load_variable_ok.mpr ⟨.reference, slot, rfl, hSlot, rfl⟩
  obtain ⟨code, p', hReceiver⟩ : ∃ code p',
      (site.specialReceiver (.variable name (.object className))).run p =
        .ok ((qualify site.scope.unit className, code), p') := by
    cases hWaits : p.pending.contains name with
    | true => exact ⟨_, _, specialReceiver_run.mpr (.inl ⟨name, _, rfl, hWaits, rfl, rfl, rfl⟩)⟩
    | false =>
        exact ⟨_, _, specialReceiver_run.mpr (.inr (.inl ⟨name, _, rfl, hWaits, rfl, hLoad, rfl⟩))⟩
  have hNone : ∀ o ∈ [], Operand.Typed c o ∧ site.Holds o := nofun
  obtain ⟨callCode, hCode⟩ := invocation_total hStatic .special (qualify site.scope.unit className)
    "<init>" code .void (fun o ho => (hNone o ho).1) (fun o ho => (hNone o ho).2)
  exact ⟨_, p', callStatement_run.mpr ⟨callCode, _,
    call_invokeSpecial_run.mpr ⟨"<init>", _, code, rfl, hReceiver, hCode⟩, rfl⟩⟩

/-- Every instruction of well-typed code is selected, if its variables have slots. The state of the
selection does not matter. -/
theorem instr_total {i : Code.Instr} (h : i.Typed c) (hSlots : site.HoldsAll i) (p : Progress) :
    ∃ code p', (site.instr i).run p = .ok (code, p') := by
  cases h with
  | assign hName hRhs hValue hFits =>
      obtain ⟨slot, hSlot⟩ := hSlots _ (.dest (.value _))
      obtain ⟨code, p', hCode⟩ :=
        value_total hStatic hRhs hValue (fun name hName => hSlots name (.rhs hName)) p
      obtain ⟨kind, hKind⟩ := kindOf_total (hFits.isVoid.trans hValue)
      exact ⟨_, p', (assign_variable_run (allocated?_of_yields hRhs)).mpr
        ⟨slot, code, kind, hSlot, hCode, hKind, rfl⟩⟩
  | store hArray hElementary hPlace hInt hRhs hFits =>
      obtain ⟨kind, hKind⟩ := elementKindOf_total hElementary
      obtain ⟨slot, hSlot⟩ := hSlots _ (.dest (.array _ _))
      have hItem := (Operand.Typed.element hArray hElementary hPlace hInt).isVoid
      obtain ⟨placeCode, hPlace⟩ :=
        load_total hStatic hPlace fun name hName => hSlots name (.dest (.place hName))
      obtain ⟨code, p', hCode⟩ := value_total hStatic hRhs (hFits.isVoid.symm.trans hItem)
        (fun name hName => hSlots name (.rhs hName)) p
      exact ⟨_, p', assign_element_run.mpr ⟨kind, slot, placeCode, code, hKind, hSlot, hPlace, hCode, rfl⟩⟩
  | allocation hName =>
      obtain ⟨slot, hSlot⟩ := hSlots _ (.dest (.value _))
      exact ⟨_, _, allocation_run_of_slot p hSlot⟩
  | construction hName => exact construction_total hStatic hSlots p
  | putField hInstance ho hFits =>
      obtain ⟨selfCode, hSelf⟩ := self_total hStatic hInstance
      obtain ⟨code, hLoad⟩ := load_total hStatic ho fun name hName => hSlots name (.putValue hName)
      exact ⟨_, p, instr_putField_run.mpr ⟨_, selfCode, code, rfl, hSelf, hLoad, rfl, rfl⟩⟩
  | retNone => exact ⟨_, p, instr_ret_run.mpr ⟨ret_none_ok.mpr rfl, rfl⟩⟩
  | ret ho hFits =>
      obtain ⟨code, hLoad⟩ := load_total hStatic ho fun name hName => hSlots name (.ret hName)
      obtain ⟨kind, hKind⟩ := kindOf_total (hFits.isVoid.trans ho.isVoid)
      exact ⟨_, p, instr_ret_run.mpr ⟨ret_some_ok.mpr ⟨code, kind, hLoad, hKind, rfl⟩, rfl⟩⟩
  | branch hCondition =>
      cases hCondition with
      | single ho =>
          obtain ⟨code, hLoad⟩ := load_total hStatic ho fun name hName => hSlots name (.test hName)
          exact ⟨_, p, instr_branch_run.mpr ⟨branch_single_ok.mpr ⟨code, hLoad, rfl⟩, rfl⟩⟩
      | compare hOp hLeft hRight =>
          obtain ⟨comparison, hComparison⟩ := comparisonOf_total hOp
          obtain ⟨leftCode, hLeft⟩ :=
            load_total hStatic hLeft fun name hName => hSlots name (.testLeft hName)
          obtain ⟨rightCode, hRight⟩ :=
            load_total hStatic hRight fun name hName => hSlots name (.testRight hName)
          exact ⟨_, p, instr_branch_run.mpr ⟨branch_compare_ok.mpr
            ⟨comparison, leftCode, rightCode, hComparison, hLeft, hRight, rfl⟩, rfl⟩⟩
  | goto target => exact ⟨_, p, instr_goto_run.mpr ⟨rfl, rfl⟩⟩
  | label l => exact ⟨_, p, instr_label_run.mpr ⟨rfl, rfl⟩⟩
  | eval h =>
      have hMere : isMere i = true → i.valueType.isVoid = false →
          ∃ code p', (site.instr i).run p = .ok (code, p') := by
        intro hMere hValue
        obtain ⟨code, p', hCode⟩ := value_total hStatic h hValue hSlots p
        exact ⟨_, p', (instr_mere_run hMere).mpr ⟨code, hCode, rfl⟩⟩
      cases i with
      | call kind receiver method arguments ty =>
          obtain ⟨code, p', hCall⟩ := call_total hStatic h hSlots p
          exact ⟨_, p', callStatement_run.mpr ⟨code, _, hCall, rfl⟩⟩
      | operand o =>
          cases h with
          | operand ho => exact hMere rfl ho.isVoid
      | binary op left right ty => exact hMere rfl (by cases h <;> rfl)
      | not o ty => exact hMere rfl (by cases h; rfl)
      | getField object field ty =>
          cases h with
          | getField _ hValue => exact hMere rfl hValue
      | _ => cases h

end Site

/-- A typed body is selected if its variables have slots. What the earlier instructions leave waiting
does not matter for that. -/
theorem codeOf_total (site : Site) {c : Context} (hStatic : site.method.isStatic = c.isStatic)
    {source : List Code.Instr} (hTyped : ∀ i ∈ source, i.Typed c)
    (hSlots : ∀ i ∈ source, site.HoldsAll i) (p : Progress) :
    ∃ code p', (codeOf site source).run p = .ok (code, p') := by
  induction source generalizing p with
  | nil => exact ⟨_, _, codeOf_nil_run.mpr ⟨rfl, rfl⟩⟩
  | cons i rest ih =>
      obtain ⟨hHead, hRest⟩ := List.forall_mem_cons.mp hTyped
      obtain ⟨hHeadSlots, hRestSlots⟩ := List.forall_mem_cons.mp hSlots
      obtain ⟨first, p₁, hFirst⟩ := Site.instr_total hStatic hHead hHeadSlots p
      obtain ⟨others, p', hOthers⟩ := ih hRest hRestSlots p₁
      exact ⟨_, p', codeOf_cons_run.mpr ⟨first, p₁, others, hFirst, hOthers, rfl⟩⟩

/-- In a method with a frame the variables of every instruction have slots, for the frame has gone
through all of them. -/
theorem Frame.Lays.holdsAll {m : Method} {frame : Frame}
    (h : Lays m.receiverSlots (order m) frame) (scope : ClassScope) {i : Code.Instr} (hi : i ∈ m.body) :
    Site.HoldsAll ⟨scope, m, frame⟩ i := by
  intro name hName
  have hMem : name ∈ order m := mem_foldl.mpr (.inr (Code.Method.mem_names.mpr (.body i hi hName)))
  obtain ⟨place, hPlace⟩ := List.mem_iff_getElem?.mp hMem
  exact ⟨_, Site.slot_ok.mpr (h.slot hPlace)⟩

/-- The code of methods, one after the other, without what class files state about it. Only the number of
comparisons is handed on. -/
def methodCodes (scope : ClassScope) (comparisons : Nat) :
    List Method → Except CompileError (List (List Stack.Instr))
  | [] => return []
  | m :: rest => do
      let frame ← Frame.ofMethod m
      let (code, progress) ← (codeOf ⟨scope, m, frame⟩ m.body).run ⟨comparisons, []⟩
      return code :: (← methodCodes scope progress.comparisons rest)

/-- The code of the first method is selected with its frame, and the rest goes on with the comparisons
counted so far. -/
theorem methodCodes_cons_ok {scope : ClassScope} {comparisons : Nat} {m : Method}
    {rest : List Method} {codes : List (List Stack.Instr)} :
    methodCodes scope comparisons (m :: rest) = .ok codes ↔
      ∃ frame code progress others, Frame.ofMethod m = .ok frame ∧
        (codeOf ⟨scope, m, frame⟩ m.body).run ⟨comparisons, []⟩ = .ok (code, progress) ∧
        methodCodes scope progress.comparisons rest = .ok others ∧ codes = code :: others := by
  simp only [methodCodes, except_bind_ok, except_pure_ok, Prod.exists]
  constructor
  · rintro ⟨frame, hFrame, code, progress, hCode, others, hOthers, rfl⟩
    exact ⟨frame, code, progress, others, hFrame, hCode, hOthers, rfl⟩
  · rintro ⟨frame, code, progress, others, hFrame, hCode, hOthers, rfl⟩
    exact ⟨frame, hFrame, code, progress, hCode, others, hOthers, rfl⟩

/-- The walk over the code meets no depth that a class file cannot state. Types do not tell whether it
does, since expressions may nest to any depth. -/
def DepthFits (code : List Stack.Instr) : Prop :=
  ∀ method walk, code.foldlM (Stack.Walk.step method) .start = .ok walk → walk.maxDepth ≤ 65535

/-- A method whose code is there: well-typed for some types of its variables, and with the
constructor of an object called as soon as the object is there. -/
structure Compilable (m : Method) : Prop where
  typed : ∃ c : Context, m.isStatic = c.isStatic ∧ ∀ i ∈ m.body, i.Typed c
  complete : Code.Complete m.body

/-- The walk over the code of such a method can fail only at a depth that cannot be stated, since the
code is balanced. -/
theorem usage_total {m : Method} (hm : Compilable m) {scope : ClassScope} {frame : Frame}
    {comparisons : Nat} {code : List Stack.Instr} {progress : Progress}
    (hCode : (codeOf ⟨scope, m, frame⟩ m.body).run ⟨comparisons, []⟩ = .ok (code, progress))
    (hDepth : DepthFits code) : ∃ usage, Stack.usage m.name code = .ok usage := by
  obtain ⟨bases, hBalanced⟩ := balanced_codeOf hm.complete rfl hCode
  obtain ⟨atLabel, hLabels⟩ := exists_labelDepths bases
  obtain ⟨f', hEnd, hBalanced⟩ := hBalanced atLabel (hLabels _ _) .start rfl
  obtain ⟨walk, hWalk, hWalkEnd, -⟩ := hBalanced.flows.walk m.name
  have hMax : walk.maxDepth < UInt16.size := Nat.lt_succ_of_le (hDepth m.name walk hWalk)
  have hZero : walk.depth < UInt16.size := by
    rw [hWalkEnd, hEnd]
    decide
  refine ⟨⟨.ofNat walk.maxDepth, .ofNat walk.depth⟩, ?_⟩
  exact except_bind_ok.mpr ⟨walk, hWalk, except_bind_ok.mpr
    ⟨_, Stack.depthLimit_ok.mpr (UInt16.toNat_ofNat_of_lt' hMax), except_bind_ok.mpr
      ⟨_, Stack.depthLimit_ok.mpr (UInt16.toNat_ofNat_of_lt' hZero), rfl⟩⟩⟩

section Methods

variable {ms : List Method} (hms : ∀ m ∈ ms, Compilable m)
include hms

theorem methodCodes_total (hSlots : ∀ m ∈ ms, m.neededSlots ≤ 65535) (scope : ClassScope)
    (comparisons : Nat) : ∃ codes, methodCodes scope comparisons ms = .ok codes := by
  induction ms generalizing comparisons with
  | nil => exact ⟨[], rfl⟩
  | cons m rest ih =>
      obtain ⟨hHead, hRest⟩ := List.forall_mem_cons.mp hms
      obtain ⟨hHeadSlots, hRestSlots⟩ := List.forall_mem_cons.mp hSlots
      rcases Frame.ofMethod_cases m with ⟨frame, hFrame, hLays, -⟩ | ⟨-, hFull⟩
      · obtain ⟨c, hStatic, hTyped⟩ := hHead.typed
        obtain ⟨code, progress, hCode⟩ := codeOf_total ⟨scope, m, frame⟩ hStatic hTyped
          (fun i hi => hLays.holdsAll scope hi) ⟨comparisons, []⟩
        obtain ⟨others, hOthers⟩ := ih hRest hRestSlots progress.comparisons
        exact ⟨_, methodCodes_cons_ok.mpr ⟨frame, code, progress, others, hFrame, hCode, hOthers, rfl⟩⟩
      · exact (Nat.not_succ_le_self _ (Nat.le_trans hFull hHeadSlots)).elim

/-- If no depth is too great, there is a block for each code, and nothing else is asked of it. -/
theorem methodBlocks_total {scope : ClassScope} {comparisons : Nat} {codes : List (List Stack.Instr)}
    (hCodes : methodCodes scope comparisons ms = .ok codes) (hDepths : ∀ code ∈ codes, DepthFits code) :
    ∃ blocks, methodBlocks scope comparisons ms = .ok blocks ∧ blocks.map (·.body) = codes := by
  induction ms generalizing comparisons codes with
  | nil =>
      obtain rfl := except_pure_ok.mp hCodes
      exact ⟨[], rfl, rfl⟩
  | cons m rest ih =>
      obtain ⟨hHead, hRest⟩ := List.forall_mem_cons.mp hms
      obtain ⟨frame, code, progress, others, hFrame, hCode, hOthers, rfl⟩ := methodCodes_cons_ok.mp hCodes
      obtain ⟨hDepth, hOtherDepths⟩ := List.forall_mem_cons.mp hDepths
      obtain ⟨usage, hUsage⟩ := usage_total hHead hCode hDepth
      obtain ⟨blocks, hBlocks, rfl⟩ := ih hRest hOthers hOtherDepths
      exact ⟨_, methodBlocks_cons_ok.mpr ⟨_, _, blocks,
        methodBlock_ok.mpr ⟨frame, code, progress, usage, hFrame, hCode, hUsage, rfl, rfl⟩, hBlocks, rfl⟩,
        rfl⟩

end Methods

/-- The methods of a lowered well-typed program can be compiled: they have frames, and all their
instructions are selected. -/
theorem compilable_of_wellTyped {withConstructor : Bool} {program : Source.Program}
    {unit : Code.ClassUnit} (hTyped : program.WellTyped)
    (hUnit : Lowering.ofProgram withConstructor program = .ok unit) :
    ∀ m ∈ unit.methods, Compilable m := by
  intro m hm
  refine ⟨?_, Lowering.complete_ofProgram hUnit m hm⟩
  obtain ⟨lowered, _, hMethods, rfl⟩ := Lowering.ofProgram_ok.mp hUnit
  obtain ⟨source, hSource, _, _, hLowered⟩ := Lowering.exists_source hMethods hm
  obtain ⟨typeOf, _, hCode⟩ := Lowering.typed_method hTyped hSource hLowered
  exact ⟨_, (Lowering.method_head hLowered).2.1, hCode⟩

/-- A well-typed program compiles, whose arrays are of sizes that arrays may have. Lowering finds
code for all of it. There is stack code for that if no method needs more slots than can be numbered,
and an assembly text if none needs a deeper stack than a class file can state. -/
theorem wellTyped_compiles {program : Source.Program} (hTyped : program.WellTyped)
    (hPacks : program.packsFit) (withConstructor : Bool) :
    ∃ unit, Lowering.ofProgram withConstructor program = .ok unit ∧
      ∀ options : Options, (∀ m ∈ unit.methods, m.neededSlots ≤ 65535) →
        ∃ codes, methodCodes (.ofUnit options.defaultSuper unit) 0 unit.methods = .ok codes ∧
          ((∀ code ∈ codes, DepthFits code) → ∃ text, classText options unit = .ok text) := by
  obtain ⟨unit, hUnit⟩ := Lowering.ofProgram_total withConstructor hTyped hPacks
  have hMethods := compilable_of_wellTyped hTyped hUnit
  refine ⟨unit, hUnit, fun options hSlots => ?_⟩
  obtain ⟨codes, hCodes⟩ := methodCodes_total hMethods hSlots (.ofUnit options.defaultSuper unit) 0
  refine ⟨codes, hCodes, fun hDepths => ?_⟩
  obtain ⟨blocks, hBlocks, -⟩ := methodBlocks_total hMethods hCodes hDepths
  exact ⟨_, except_bind_ok.mpr ⟨blocks, hBlocks, rfl⟩⟩

namespace Pair

/-- `static int[] pair() { return {1, 2}; }`. -/
def source : Source.MethodDecl where
  name := "pair"
  isPublic := false
  isStatic := true
  returnType := .intArray
  parameters := []
  locals := []
  body := [.ret (some (.arrayLiteral [.intLiteral 1, .intLiteral 2]))]

/-- A class with the one method. -/
def program : Source.Program := ⟨[], ⟨"Pair", none, [], [source]⟩⟩

/-- The array is made in a temporary, filled one item after another and returned. -/
def lowered : Method where
  name := "pair"
  isPublic := false
  isStatic := true
  isVarargs := false
  parameters := []
  returnType := .intArray
  body :=
    let item (place : Int32) : Operand := .element "tmp0" (.int place) .int32
    [.assign (.variable "tmp0" .intArray) .intArray (Lowering.newIntArray (.int 2)),
      .assign (item 0) .int32 (.operand (.int 1)),
      .assign (item 1) .int32 (.operand (.int 2)),
      .ret (some (.variable "tmp0" .intArray)) .intArray]

def unit : Code.ClassUnit := ⟨"Pair", none, [], [], [lowered], true⟩

def frame : Frame := ⟨(∅ : Std.HashMap String UInt16).insert "tmp0" 0, 1⟩

/-- Each item is stored over the array and its place, so that three cells are needed. -/
def code : List Stack.Instr := [
  .iconst 2, .newIntArray, .storeShort .reference 0,
  .loadShort .reference 0, .iconst 0, .iconst 1, .arrayStore .int,
  .loadShort .reference 0, .iconst 1, .iconst 2, .arrayStore .int,
  .loadShort .reference 0, .retValue .reference]

theorem ofProgram_eq : Lowering.ofProgram true program = .ok unit := by
  have hTemp : (source.scope program).newTemp.run .start = .ok "tmp0" ⟨1, 0⟩ := by
    have hTaken : (source.scope program).takenNames = [] := by rfl
    have hName : Lowering.tempName 0 = "tmp0" := by decide
    rw [Lowering.newTemp_run, hTaken, Lowering.firstFree, if_neg List.not_mem_nil]
    exact congrArg (EStateM.Result.ok · _) hName
  have hValue : (Lowering.operand (source.scope program) (.arrayLiteral [.intLiteral 1, .intLiteral 2])).run
      .start = .ok (.variable "tmp0" .intArray, lowered.body.take 3) ⟨1, 0⟩ :=
    Lowering.operand_run.mpr (Lowering.expr_arrayLiteral_run.mpr
      ⟨[.int 1, .int 2], [], .start, "tmp0", _, by rfl, hTemp, by rfl, rfl⟩)
  have hBody : (Lowering.stmts (source.scope program) source.body).run .start =
      .ok lowered.body ⟨1, 0⟩ :=
    Lowering.stmts_cons_run.mpr ⟨lowered.body, ⟨1, 0⟩, [],
      Lowering.ret_some_run.mpr ⟨_, _, hValue, rfl⟩, Lowering.stmts_nil_run.mpr ⟨rfl, rfl⟩, rfl⟩
  exact Lowering.ofProgram_ok.mpr ⟨[lowered], ⟨1, 0⟩, Lowering.methods_cons_run.mpr
    ⟨lowered, ⟨1, 0⟩, [], Lowering.method_run.mpr ⟨_, lowered.body, by rfl, hBody, by rfl⟩,
      Lowering.methods_nil_run.mpr ⟨rfl, rfl⟩, rfl⟩, rfl⟩

theorem framed : Frame.ofMethod lowered = .ok frame := by
  simp [lowered, frame, Frame.ofMethod, Frame.empty, Frame.add, Method.names,
    Code.Instr.names, Operand.names, Lowering.newIntArray, Operand.int, List.foldlM, bind, Except.bind,
    pure, Except.pure, UInt16.size]

theorem selected (scope : ClassScope) (m : Method) :
    (codeOf ⟨scope, m, frame⟩ lowered.body).run .start = .ok (code, .start) := by
  have hSlot : Site.slot ⟨scope, m, frame⟩ "tmp0" = .ok 0 := by
    simp [Site.slot_ok, Frame.slot?, frame]
  simp only [lowered, codeOf, Site.instr, Site.assign, Site.allocated?, Site.value, Site.ret, Site.load,
    Site.callValue, Site.call, Site.newArray, Lowering.newIntArray, kindOf, elementKindOf, hSlot]
  rfl

theorem depthFits : DepthFits code := by
  intro method walk hWalk
  obtain rfl : Stack.Walk.mk 0 3 false ∅ = walk := Except.ok.inj hWalk
  decide

end Pair

/-- A method that makes an array of two items compiles. -/
theorem pair_compiles :
    Pair.program.WellTyped ∧ Pair.program.packsFit ∧
      Lowering.ofProgram true Pair.program = .ok Pair.unit ∧
      ∃ text, classText .standard Pair.unit = .ok text := by
  have hTyped : Pair.program.WellTyped := by decide
  have hPacks : Pair.program.packsFit := List.forall_mem_singleton.mpr (by decide)
  refine ⟨hTyped, hPacks, Pair.ofProgram_eq, ?_⟩
  obtain ⟨unit, hUnit, hText⟩ := wellTyped_compiles hTyped hPacks true
  obtain rfl : unit = Pair.unit := Except.ok.inj (hUnit.symm.trans Pair.ofProgram_eq)
  have hSlots : ∀ m ∈ Pair.unit.methods, m.neededSlots ≤ 65535 := by
    refine List.forall_mem_singleton.mpr ?_
    rcases Frame.ofMethod_cases Pair.lowered with ⟨_, _, _, hRoom⟩ | ⟨hFull, _⟩
    · exact Nat.le_of_lt_succ hRoom
    · rw [Pair.framed] at hFull
      cases hFull
  obtain ⟨codes, hCodes, hDepths⟩ := hText .standard hSlots
  obtain ⟨_, _, _, _, hFrame, hCode, hRest, rfl⟩ := methodCodes_cons_ok.mp hCodes
  obtain rfl := Except.ok.inj (hFrame.symm.trans Pair.framed)
  obtain ⟨rfl, rfl⟩ := Prod.mk.inj (Except.ok.inj (hCode.symm.trans (Pair.selected _ _)))
  obtain rfl := except_pure_ok.mp hRest
  exact hDepths (List.forall_mem_singleton.mpr Pair.depthFits)

end MiniJava.Assembly
