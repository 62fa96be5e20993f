import MiniJava.Proofs.Assembly.Frames
import MiniJava.Proofs.Assembly.Pervades

/-!
The slots that the code of a method addresses. Selection asks for the slots of the variables that the
method mentions and for no others.
-/

namespace MiniJava.Assembly

open Code (Condition Method Operand Ty)

/-- The step does not end with a name that could not be resolved. It may end with any other failure. -/
def Resolves {α : Type} (x : Except CompileError α) : Prop :=
  ∀ kind name context, x ≠ .error (.unresolved kind name context)

namespace Resolves

variable {α β : Type}

theorem ok (a : α) : Resolves (.ok a) := by
  intro _ _ _ h
  cases h

theorem unsupported (construct : String) :
    Resolves (.error (.unsupported construct) : Except CompileError α) := by
  intro _ _ _ h
  cases h

theorem underflow (method instruction : String) :
    Resolves (.error (.stackUnderflow method instruction) : Except CompileError α) := by
  intro _ _ _ h
  cases h

theorem internal (message : String) :
    Resolves (.error (.internal message) : Except CompileError α) := by
  intro _ _ _ h
  cases h

/-- A sequence of steps resolves its names if each step does, whatever the first one results in. -/
theorem bind {x : Except CompileError α} {f : α → Except CompileError β} (hx : Resolves x)
    (hf : ∀ a, Resolves (f a)) : Resolves (x >>= f) := by
  cases x with
  | ok a => exact hf a
  | error e =>
      intro kind name context hError
      cases hError
      exact hx kind name context rfl

end Resolves

/-- Whatever the progress, the step does not end with a name that could not be resolved. -/
def SelectResolves {α : Type} (x : Select α) : Prop := ∀ p, Resolves (x.run p)

namespace SelectResolves

variable {α β : Type}

theorem pure (a : α) : SelectResolves (Pure.pure a : Select α) := fun _ => .ok _

/-- Steps that do not look at the progress resolve their names whatever it is. Most of selection is of
this sort. -/
theorem lift {x : Except CompileError α} (h : Resolves x) : SelectResolves (liftM x : Select α) :=
  fun _ => h.bind fun _ => .ok _

theorem bind {x : Select α} {f : α → Select β} (hx : SelectResolves x)
    (hf : ∀ a, SelectResolves (f a)) : SelectResolves (x >>= f) := by
  intro p
  rw [StateT.run_bind]
  exact (hx p).bind fun r => hf r.1 r.2

theorem unsupported (construct : String) :
    SelectResolves (throw (.unsupported construct) : Select α) := fun _ => .unsupported construct

theorem internal (message : String) :
    SelectResolves (throw (.internal message) : Select α) := fun _ => .internal message

end SelectResolves

/-- A type without a kind is an unsupported construct, and no name is named in that error. -/
theorem resolves_kindOf (ty : Ty) : Resolves (kindOf ty) := by
  cases ty <;> first | exact .ok _ | exact .unsupported _

theorem resolves_elementKindOf (ty : Ty) : Resolves (elementKindOf ty) := by
  cases ty <;> first | exact .ok _ | exact .unsupported _

theorem resolves_comparisonOf (op : Code.BinaryOp) : Resolves (comparisonOf op) := by
  cases op <;> first | exact .ok _ | exact .unsupported _

/-- An operand that gives access to no class is an error of its own, and again no name. -/
theorem ClassScope.resolves_classOf (scope : ClassScope) (o : Operand) :
    Resolves (scope.classOf o) := by
  unfold ClassScope.classOf
  split
  · exact .ok _
  · exact .ok _
  · split
    · exact .ok _
    · exact .ok _
    · exact .unsupported _

namespace Site

variable {site : Site}

/-- Every name of an operand has a slot, as far as failures can tell. -/
def Knows (site : Site) (o : Operand) : Prop := ∀ name, o.Mentions name → Resolves (site.slot name)

theorem resolves_methodName (call : Code.Instr) (method : Option String) :
    Resolves (methodName call method) := by
  cases method with
  | none => exact .internal _
  | some name => exact .ok name

/-- Loading asks for slots of names that the operand mentions, and for nothing else that could be
unresolved. -/
theorem resolves_load {o : Operand} (h : site.Knows o) : Resolves (site.load o) := by
  induction o with
  | literal value ty => exact .ok _
  | «variable» name ty =>
      exact (resolves_kindOf ty).bind fun _ => (h name (.value ty)).bind fun _ => .ok _
  | element array place ty ih =>
      have hPlace := ih fun name hName => h name (.place hName)
      exact (resolves_elementKindOf ty).bind fun _ =>
        (h array (.array place ty)).bind fun _ => hPlace.bind fun _ => .ok _
  | self ty =>
      unfold Site.load
      split_ifs
      · exact .unsupported _
      · exact .ok _
  | classRef name => exact .unsupported _

theorem resolves_loadAll {operands : List Operand} (h : ∀ o ∈ operands, site.Knows o) :
    Resolves (site.loadAll operands) := by
  refine Resolves.bind ?_ fun _ => .ok _
  induction operands with
  | nil => exact .ok _
  | cons o rest ih =>
      obtain ⟨hFirst, hRest⟩ := List.forall_mem_cons.mp h
      rw [List.mapM_cons]
      exact (resolves_load hFirst).bind fun _ => (ih hRest).bind fun _ => .ok _

theorem resolves_binary {op : Code.BinaryOp} {left right : Operand} (hLeft : site.Knows left)
    (hRight : site.Knows right) : SelectResolves (site.binary op left right) := by
  refine .bind (.lift (resolves_load hLeft)) fun leftCode => ?_
  refine .bind (.lift (resolves_load hRight)) fun rightCode => ?_
  have hComparison : SelectResolves (do
      let comparison ← liftM (comparisonOf op)
      let labels ← newComparisonLabels
      pure (leftCode ++ rightCode ++ comparisonCode comparison labels) :
        Select (List Stack.Instr)) :=
    .bind (.lift (resolves_comparisonOf op)) fun _ => .bind (fun _ => .ok _) fun _ => .pure _
  cases op
  case add | sub | mul | div | and => exact .pure _
  case lt | gt | le | ge => exact hComparison

/-- An invocation asks for the slots of its arguments; classes and methods are never looked up. -/
theorem resolves_invocation {kind : Stack.InvokeKind} {className name : String}
    {receiverCode : List Stack.Instr} {arguments : List Operand} {returnType : Ty}
    (h : ∀ o ∈ arguments, site.Knows o) :
    Resolves (site.invocation kind className name receiverCode arguments returnType) :=
  (resolves_loadAll h).bind fun _ => .ok _

/-- The receiver of a special call may be on the stack already; otherwise it is loaded. -/
theorem resolves_specialReceiver {receiver : Operand} (h : site.Knows receiver) :
    SelectResolves (site.specialReceiver receiver) := by
  have hClass := site.scope.resolves_classOf receiver
  have hLoad := resolves_load h
  cases receiver with
  | «variable» name ty =>
      refine .bind (fun _ => .ok _) fun waits => ?_
      split_ifs
      · exact .bind (.lift hClass) fun _ => .pure _
      · exact .bind (.lift hClass) fun _ => .bind (.lift hLoad) fun _ => .pure _
  | self ty => exact .bind (.lift hLoad) fun _ => .pure _
  | literal | element | classRef =>
      exact .bind (.lift hClass) fun _ => .bind (.lift hLoad) fun _ => .pure _

/-- The size is the one operand that is asked for; other shapes are unsupported. -/
theorem resolves_newArray {call : Code.Instr} {arguments : List Operand} {returnType : Ty}
    (h : ∀ o ∈ arguments, site.Knows o) :
    Resolves (site.newArray call arguments returnType) := by
  unfold newArray
  split_ifs
  · split
    · exact (resolves_load (h _ List.mem_cons_self)).bind fun _ => .ok _
    · exact .internal _
  · exact .unsupported _

theorem resolves_call {i : Code.Instr} (h : ∀ name, i.Mentions name → Resolves (site.slot name)) :
    SelectResolves (site.call i) := by
  cases i with
  | call kind receiver method arguments returnType =>
      have hReceiver : site.Knows receiver := fun name hName => h name (.receiver hName)
      have hArguments : ∀ o ∈ arguments, site.Knows o :=
        fun o ho name hName => h name (.argument ho hName)
      have hClass := site.scope.resolves_classOf receiver
      have hName := resolves_methodName (.call kind receiver method arguments returnType) method
      cases kind with
      | new =>
          simp only [call]
          split_ifs
          · exact .bind (.lift (resolves_newArray hArguments)) fun _ => .pure _
          · exact .bind (.lift hClass) fun _ => .pure _
      | arrayLength => exact .bind (.lift (resolves_load hReceiver)) fun _ => .pure _
      | invokeStatic =>
          exact .bind (.lift hClass) fun _ => .bind (.lift hName) fun _ =>
            .lift (resolves_invocation hArguments)
      | invokeVirtual =>
          exact .bind (.lift hClass) fun _ => .bind (.lift hName) fun _ =>
            .bind (.lift (resolves_load hReceiver)) fun _ => .lift (resolves_invocation hArguments)
      | invokeSpecial =>
          exact .bind (.lift hName) fun _ => .bind (resolves_specialReceiver hReceiver) fun _ =>
            .lift (resolves_invocation hArguments)
  | _ => exact .internal _

theorem resolves_value {i : Code.Instr} (h : ∀ name, i.Mentions name → Resolves (site.slot name)) :
    SelectResolves (site.value i) := by
  cases i with
  | operand o => exact .lift (resolves_load fun name hName => h name (.operand hName))
  | binary op left right ty =>
      exact resolves_binary (fun name hName => h name (.left hName))
        (fun name hName => h name (.right hName))
  | not o ty =>
      exact .bind (.lift (resolves_load fun name hName => h name (.not hName))) fun _ => .pure _
  | getField object field ty =>
      have hObject : site.Knows object := fun name hName => h name (.getField hName)
      exact .bind (.lift ((site.scope.resolves_classOf object).bind fun _ => .ok _)) fun _ =>
        .bind (.lift (resolves_load hObject)) fun _ => .pure _
  | call kind receiver method arguments returnType =>
      refine .bind (resolves_call h) fun r => ?_
      obtain ⟨code, pushes⟩ := r
      cases pushes with
      | true => exact .pure _
      | false => exact .unsupported _
  | _ => exact .unsupported _

/-- The slot of the destination is asked for as well, which the instruction mentions. -/
theorem resolves_assign {dest : Operand} {ty : Ty} {rhs : Code.Instr}
    (h : ∀ name, (Code.Instr.assign dest ty rhs).Mentions name → Resolves (site.slot name)) :
    SelectResolves (site.assign dest rhs) := by
  have hRhs := resolves_value fun name hName => h name (.rhs hName)
  cases dest with
  | «variable» name destTy =>
      refine .bind (.lift (h name (.dest (.value destTy)))) fun _ => ?_
      split
      · exact .bind (.lift (site.scope.resolves_classOf _)) fun _ =>
          .bind (fun _ => .ok _) fun _ => .pure _
      · exact .bind hRhs fun _ => .bind (.lift (resolves_kindOf destTy)) fun _ => .pure _
  | element array place destTy =>
      have hPlace : site.Knows place := fun name hName => h name (.dest (.place hName))
      exact .bind (.lift (resolves_elementKindOf destTy)) fun _ =>
        .bind (.lift (h array (.dest (.array place destTy)))) fun _ =>
          .bind (.lift (resolves_load hPlace)) fun _ => .bind hRhs fun _ => .pure _
  | _ => exact .unsupported _

theorem resolves_ret {value : Option Operand} {ty : Ty} (h : ∀ o ∈ value, site.Knows o) :
    Resolves (site.ret value ty) := by
  cases value with
  | none => exact .ok _
  | some o =>
      unfold ret
      dsimp only
      split_ifs
      · exact .unsupported _
      · exact (resolves_load (h o rfl)).bind fun _ => (resolves_kindOf ty).bind fun _ => .ok _

theorem resolves_branch {condition : Condition} {target : Code.Label}
    (h : ∀ name, (Code.Instr.branch condition target).Mentions name → Resolves (site.slot name)) :
    Resolves (site.branch condition target.text) := by
  cases condition with
  | single o => exact (resolves_load fun name hName => h name (.test hName)).bind fun _ => .ok _
  | compare op left right =>
      have hLeft := resolves_load fun name hName => h name (.testLeft hName)
      have hRight := resolves_load fun name hName => h name (.testRight hName)
      exact (resolves_comparisonOf op).bind fun _ => hLeft.bind fun _ => hRight.bind fun _ => .ok _

/-- An instruction asks for the slots of the names that it mentions and for no others. If these resolve,
it may still fail in other ways. -/
theorem resolves_instr {i : Code.Instr} (h : ∀ name, i.Mentions name → Resolves (site.slot name)) :
    SelectResolves (site.instr i) := by
  cases i with
  | assign dest ty rhs => exact resolves_assign h
  | call kind receiver method arguments returnType =>
      exact .bind (resolves_call h) fun _ => .pure _
  | putField object field ty value =>
      have hObject : site.Knows object := fun name hName => h name (.putObject hName)
      have hValue : site.Knows value := fun name hName => h name (.putValue hName)
      exact .bind (.lift ((site.scope.resolves_classOf object).bind fun _ => .ok _)) fun _ =>
        .bind (.lift (resolves_load hObject)) fun _ =>
          .bind (.lift (resolves_load hValue)) fun _ => .pure _
  | ret value ty =>
      refine .lift (resolves_ret fun o ho name hName => h name ?_)
      cases ho
      exact .ret hName
  | branch condition target => exact .lift (resolves_branch h)
  | goto target => exact .pure _
  | label l => exact .pure _
  | operand | binary | not | getField => exact .bind (resolves_value h) fun _ => .pure _

end Site

/-- A body asks only for the slots of names that some of its instructions mention. -/
theorem resolves_codeOf {site : Site} {source : List Code.Instr}
    (h : ∀ i ∈ source, ∀ name, i.Mentions name → Resolves (site.slot name)) :
    SelectResolves (codeOf site source) := by
  induction source with
  | nil => exact .pure _
  | cons i rest ih =>
      obtain ⟨hFirst, hRest⟩ := List.forall_mem_cons.mp h
      exact .bind (Site.resolves_instr hFirst) fun _ => .bind (ih hRest) fun _ => .pure _

theorem resolves_depthLimit (method : String) (depth : Nat) :
    Resolves (Stack.depthLimit method depth) := by
  unfold Stack.depthLimit
  split_ifs
  · exact .ok _
  · exact .internal _

theorem resolves_usage (method : String) (code : List Stack.Instr) :
    Resolves (Stack.usage method code) := by
  have hWalk : ∀ walk, Resolves (code.foldlM (Stack.Walk.step method) walk) := by
    induction code with
    | nil => exact fun walk => .ok walk
    | cons i rest ih =>
        intro walk
        rw [List.foldlM_cons]
        refine .bind ?_ ih
        unfold Stack.Walk.step
        split
        · exact .ok _
        · split_ifs
          · exact .underflow _ _
          · exact .ok _
  exact (hWalk .start).bind fun _ => (resolves_depthLimit _ _).bind fun _ =>
    (resolves_depthLimit _ _).bind fun _ => .ok _

/-- The slots of a site lie between those of the receiver and the size of the frame. The receiver itself
has one in an instance method. -/
structure Site.Bounded (site : Site) (first : Nat) : Prop where
  slot : ∀ {name slot}, site.slot name = .ok slot →
    first ≤ slot.toNat ∧ slot.toNat < site.frame.size.toNat
  receiver : site.method.isStatic = false → 0 < site.frame.size.toNat

namespace Site

variable {site : Site} {first : Nat} {p p' : Progress} {code : List Stack.Instr}

/-- Keeping within the frame is a property of everything that selection emits: slots of variables are
within it, and slot 0 is only read. -/
theorem Bounded.pervades (hSite : site.Bounded first) :
    site.Pervades (Stack.Instr.Within first site.frame.size.toNat) where
  operates h := Stack.Instr.within_of_none h.slot
  reads kind _ _ hSlot := Stack.within_loadSlot kind (hSite.slot hSlot).2
  writes kind _ _ hSlot := Stack.within_storeSlot kind (hSite.slot hSlot).2 (hSite.slot hSlot).1
  receiver hInstance := Stack.within_loadSlot .reference (hSite.receiver hInstance)

/-- The code of an instruction keeps within the frame, and writes no slot before `first`. The slot of the
receiver is read only. -/
theorem keeps_instr (hSite : site.Bounded first) {i : Code.Instr}
    (h : (site.instr i).run p = .ok (code, p')) :
    ∀ j ∈ code, j.Within first site.frame.size.toNat :=
  hSite.pervades.instr (fun hSlot _ => Stack.Instr.within_of_none hSlot)
    (.inr fun _ => Stack.Instr.within_of_none rfl) h

end Site

theorem Frame.Lays.resolves {m : Method} {frame : Frame}
    (h : Lays m.receiverSlots (order m) frame) (scope : ClassScope) {name : String}
    (hName : m.Mentions name) : Resolves (Site.slot ⟨scope, m, frame⟩ name) := by
  have hMem : name ∈ order m := mem_foldl.mpr (.inr (Code.Method.mem_names.mpr hName))
  obtain ⟨place, hPlace⟩ := List.mem_iff_getElem?.mp hMem
  rw [Site.slot_ok.mpr (h.slot hPlace)]
  exact .ok _

/-- The names laid have slots from behind the receiver up to the size of the frame, and an instance
method has a slot for its receiver. -/
theorem Frame.Lays.bounded {m : Method} {frame : Frame}
    (h : Lays m.receiverSlots (order m) frame) (scope : ClassScope) :
    Site.Bounded ⟨scope, m, frame⟩ m.receiverSlots where
  slot := by
    intro name slot hSlot
    obtain ⟨place, -, hNumber, hInside⟩ := h.mem_of_slot (Site.slot_ok.mp hSlot)
    have hSize := h.size
    exact ⟨by omega, by dsimp only; omega⟩
  receiver := by
    intro hInstance
    have hSize := h.size
    have hOne : m.receiverSlots = 1 := by
      rw [Method.receiverSlots, if_neg (Bool.eq_false_iff.mp hInstance)]
    dsimp only
    omega

/-- A method has a frame exactly if the slots that it needs can be numbered with sixteen bits.
Then the slots are those from the first on, without gaps, one for each variable that the method
mentions and the parameters first; no instruction of the method asks for the slot of another
variable, in whatever progress it is selected; and the code selected for it stays within the frame
and never overwrites the receiver. -/
theorem frame_sound (m : Method) :
    ((∃ frame, Frame.ofMethod m = .ok frame) ↔ m.neededSlots ≤ 65535) ∧
      (∀ scope comparisons, Resolves (methodBlock scope comparisons m)) ∧
      ∀ frame, Frame.ofMethod m = .ok frame →
        (∀ a b slot, frame.slot? a = some slot → frame.slot? b = some slot → a = b) ∧
        (∀ name, (frame.slot? name).isSome = true ↔ m.Mentions name) ∧
        (∀ slot : UInt16, (∃ name, frame.slot? name = some slot) ↔
          m.receiverSlots ≤ slot.toNat ∧ slot.toNat < frame.size.toNat) ∧
        ((m.parameters.map (·.name)).Nodup → ∀ place v, m.parameters[place]? = some v →
          (frame.slot? v.name).map (·.toNat) = some (m.receiverSlots + place)) ∧
        ∀ scope, ∀ i ∈ m.body, ∀ p,
          Resolves ((Site.instr ⟨scope, m, frame⟩ i).run p) ∧
          ∀ code p', (Site.instr ⟨scope, m, frame⟩ i).run p = .ok (code, p') →
            ∀ j ∈ code, ∀ slot, j.slot? = some slot →
              slot < frame.size.toNat ∧ (j.isStore = true → m.isStatic = false → slot ≠ 0) := by
  refine ⟨?_, ?_, ?_⟩
  · rcases Frame.ofMethod_cases m with ⟨frame, hFrame, -, hRoom⟩ | ⟨hFrame, hFull⟩
    · exact iff_of_true ⟨frame, hFrame⟩ (Nat.le_of_lt_succ hRoom)
    · refine iff_of_false ?_ (Nat.not_le.mpr hFull)
      rintro ⟨frame, hOk⟩
      rw [hFrame] at hOk
      cases hOk
  · intro scope comparisons
    rcases Frame.ofMethod_cases m with ⟨frame, hFrame, hLays, -⟩ | ⟨hFrame, -⟩
    · rw [methodBlock, hFrame]
      have hBody : SelectResolves (codeOf ⟨scope, m, frame⟩ m.body) :=
        resolves_codeOf fun i hi name hName => hLays.resolves scope (.body i hi hName)
      exact (hBody _).bind fun _ => (resolves_usage _ _).bind fun _ => .ok _
    · rw [methodBlock, hFrame]
      exact Resolves.internal _
  · intro frame hFrame
    have hLays := Frame.lays_of_ofMethod hFrame
    have hSize := hLays.size
    refine ⟨?_, ?_, ?_, ?_, ?_⟩
    · exact fun a b slot => hLays.injective
    · intro name
      rw [← Code.Method.mem_names]
      have hOrder : name ∈ Frame.order m ↔ name ∈ m.names := by simp [Frame.order, Frame.mem_foldl]
      rw [← hOrder, ← hLays.contains, Std.HashMap.contains_iff_mem,
        Std.HashMap.mem_iff_isSome_getElem?]
      rfl
    · intro slot
      constructor
      · rintro ⟨name, hSlot⟩
        obtain ⟨place, -, hNumber, hInside⟩ := hLays.mem_of_slot hSlot
        omega
      · rintro ⟨hFirst, hLast⟩
        have hInside : slot.toNat - m.receiverSlots < (Frame.order m).length := by omega
        refine ⟨(Frame.order m)[slot.toNat - m.receiverSlots], ?_⟩
        rw [hLays.slot (List.getElem?_eq_getElem hInside), Nat.add_sub_cancel' hFirst,
          UInt16.ofNat_toNat]
    · intro hDistinct place v hPlace
      have hName : (Frame.order m)[place]? = some v.name := by
        obtain ⟨rest, hRest⟩ := Frame.parameters_prefix_order hDistinct
        obtain ⟨hInside, -⟩ := List.getElem?_eq_some_iff.mp hPlace
        rw [← hRest, List.getElem?_append_left (by simpa using hInside), List.getElem?_map, hPlace]
        rfl
      exact hLays.number hName
    · intro scope i hi p
      refine ⟨Site.resolves_instr (fun name hName => hLays.resolves scope (.body i hi hName)) p, ?_⟩
      intro code p' hRun j hj slot hSlot
      obtain ⟨hInside, hStored⟩ := Site.keeps_instr (hLays.bounded scope) hRun j hj slot hSlot
      refine ⟨hInside, fun hStore hInstance => ?_⟩
      have hFirst := hStored hStore
      rw [Method.receiverSlots, if_neg (Bool.eq_false_iff.mp hInstance)] at hFirst
      omega

namespace Nested

/-- A method that no program lowers to: `x = a[b[at]]`, with the inner item as a place. -/
def method : Method where
  name := "nested"
  isPublic := true
  isStatic := false
  isVarargs := false
  parameters := [⟨"at", .int32⟩]
  returnType := .void
  body := [
    .assign (.variable "x" .int32) .int32
      (.operand (.element "a" (.element "b" (.variable "at" .int32) .int32) .int32)),
    .ret none .void]

/-- The names in the order in which the code mentions them, with the parameter first. -/
def frame : Frame :=
  ⟨((((∅ : Std.HashMap String UInt16).insert "at" 1).insert "x" 2).insert "a" 3).insert "b" 4, 5⟩

/-- The frame is the one that the method is dealt. The place of the inner item counts as mentioned. -/
theorem framed : Frame.ofMethod method = .ok frame := by
  simp [method, frame, Frame.ofMethod, Frame.empty, Frame.add, Method.names, Code.Instr.names,
    Operand.names, List.foldlM, bind, Except.bind, pure, Except.pure, UInt16.size]

end Nested

/-- The receiver, the parameter, the result and the two arrays have the slots 0 to 4. -/
theorem nested_frame_sound :
    Nested.method.neededSlots ≤ 65535 ∧
      (Nested.frame.slot? "at").map (·.toNat) = some 1 ∧
      Nested.method.Mentions "b" ∧ ∃ name, Nested.frame.slot? name = some 4 := by
  obtain ⟨hFits, -, hSound⟩ := frame_sound Nested.method
  obtain ⟨-, hNamed, hRange, hParameters, -⟩ := hSound Nested.frame Nested.framed
  refine ⟨hFits.mp ⟨_, Nested.framed⟩, ?_, (hNamed "b").mp ?_, (hRange 4).mpr ⟨by decide, by decide⟩⟩
  · exact hParameters (by decide) 0 ⟨"at", .int32⟩ rfl
  · simp [Frame.slot?, Nested.frame]

end MiniJava.Assembly
