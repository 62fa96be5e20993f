import MiniJava.Proofs.Code.Alike
import MiniJava.Proofs.Labels.Emitted
import MiniJava.Proofs.Stack.Alike

/-! Selection from code that differs only in names and labels. Names that stand for each other get
one slot, so that the stack code differs in its labels alone. -/

namespace MiniJava.Assembly

open Code (Condition Label Method Operand Ty)
open Stack (Straight loadSlot pushInt)

variable {names : String → String → Prop} {labels : Label → Label → Prop}
  {texts : String → String → Prop}

/-- Frames of one size in which names that stand for each other have one slot. So an access to a variable
is the same instruction in both. -/
structure Frame.Alike (names : String → String → Prop) (frame frame' : Frame) : Prop where
  size : frame.size = frame'.size
  slots : ∀ name name', names name name' → frame.slot? name = frame'.slot? name'

namespace Frame.Alike

variable {frame frame' after after' : Frame}

theorem empty (isStatic : Bool) : Frame.Alike names (.empty isStatic) (.empty isStatic) :=
  ⟨rfl, by simp [Frame.empty, Frame.slot?]⟩

theorem contains (h : frame.Alike names frame') {name name' : String} (hName : names name name') :
    frame.slots.contains name = frame'.slots.contains name' := by
  have hSlot := congrArg Option.isSome (h.slots name name' hName)
  simpa only [Frame.slot?, ← Std.HashMap.contains_eq_isSome_getElem?] using hSlot

/-- A name and the one that stands for it are put at the end of their frames, which are equally large, so
that both get the same new slot. That no name stands for two keeps the old slots apart from it. -/
theorem insert (hUnique : Relator.BiUnique names) (h : frame.Alike names frame')
    {name name' : String} (hName : names name name') :
    Frame.Alike names ⟨frame.slots.insert name frame.size, frame.size + 1⟩
      ⟨frame'.slots.insert name' frame'.size, frame'.size + 1⟩ where
  size := congrArg (· + 1) h.size
  slots other other' hOther := by
    have hSame : name = other ↔ name' = other' := Relator.rel_eq hUnique hName hOther
    have hSlot : frame.slots[other]? = frame'.slots[other']? := h.slots other other' hOther
    simp only [Frame.slot?, Std.HashMap.getElem?_insert, beq_iff_eq, hSame, h.size, hSlot]

/-- Adding a name to a frame either finds it there or puts it behind the others. Which of these happens
is the same for names that stand for each other. -/
theorem add (hUnique : Relator.BiUnique names) (h : frame.Alike names frame')
    {name name' : String} (hName : names name name') (hAdd : frame.add name = .ok after)
    (hAdd' : frame'.add name' = .ok after') : after.Alike names after' := by
  unfold Frame.add at hAdd hAdd'
  rw [← h.contains hName, ← h.size] at hAdd'
  split at hAdd
  · rename_i hKnown
    rw [if_pos hKnown] at hAdd'
    obtain rfl := Except.ok.inj hAdd
    obtain rfl := Except.ok.inj hAdd'
    exact h
  · rename_i hNew
    rw [if_neg hNew] at hAdd'
    split at hAdd
    · cases hAdd
    · rename_i hRoom
      rw [if_neg hRoom, h.size] at hAdd'
      obtain rfl := Except.ok.inj hAdd
      obtain rfl := Except.ok.inj hAdd'
      exact h.insert hUnique hName

/-- Frames are built from the names of a method in the order of their first appearance, so that methods
whose names correspond in that order have frames that are alike. -/
theorem ofMethod (hUnique : Relator.BiUnique names) {m m' : Method}
    (hStatic : m.isStatic = m'.isStatic) (hNames : List.Forall₂ names m.names m'.names)
    (hFrame : Frame.ofMethod m = .ok frame) (hFrame' : Frame.ofMethod m' = .ok frame') :
    frame.Alike names frame' := by
  have hFold : ∀ {more more'}, List.Forall₂ names more more' → ∀ {start start' : Frame},
      start.Alike names start' → more.foldlM Frame.add start = .ok frame →
        more'.foldlM Frame.add start' = .ok frame' → frame.Alike names frame' := by
    intro more more' hMore
    induction hMore with
    | nil =>
        intro start start' h hRun hRun'
        obtain rfl := except_pure_ok.mp hRun
        obtain rfl := except_pure_ok.mp hRun'
        exact h
    | cons hName _ ih =>
        intro start start' h hRun hRun'
        rw [List.foldlM_cons] at hRun hRun'
        obtain ⟨_, hAdd, hRest⟩ := except_bind_ok.mp hRun
        obtain ⟨_, hAdd', hRest'⟩ := except_bind_ok.mp hRun'
        exact ih (h.add hUnique hName hAdd hAdd') hRest hRest'
  unfold Frame.ofMethod at hFrame hFrame'
  rw [← hStatic] at hFrame'
  exact hFold hNames (.empty m.isStatic) hFrame hFrame'

end Frame.Alike

/-- Classes that other code cannot tell from each other: of the methods, only the parameters show. What
the methods do is nowhere looked up. -/
structure ClassScope.Alike (scope scope' : ClassScope) : Prop where
  name : scope.unit.name = scope'.unit.name
  imports : scope.unit.imports = scope'.unit.imports
  superName : scope.superName = scope'.superName
  parameterTypes : ∀ name, (scope.unit.method? name).map Method.parameterTypes =
    (scope'.unit.method? name).map Method.parameterTypes

namespace ClassScope.Alike

variable {scope scope' : ClassScope}

theorem qualify_eq (h : scope.Alike scope') (name : String) :
    qualify scope.unit name = qualify scope'.unit name := by
  unfold qualify
  rw [h.name, h.imports]

theorem descriptor_eq (h : scope.Alike scope') (ty : Ty) :
    scope.descriptor ty = scope'.descriptor ty := by
  induction ty with
  | object name => rw [ClassScope.descriptor, ClassScope.descriptor, h.qualify_eq]
  | array element ih => rw [ClassScope.descriptor, ClassScope.descriptor, ih]
  | _ => rfl

/-- The class that an operand gives access to comes from its type or from its name as a class. Neither of
these is renamed. -/
theorem classOf_eq (h : scope.Alike scope') {o o' : Operand} (ho : o.Alike names o')
    {className className' : String} (hClass : scope.classOf o = .ok className)
    (hClass' : scope'.classOf o' = .ok className') : className = className' := by
  have hTy := ho.ty_eq
  rcases ClassScope.classOf_ok.mp hClass with ⟨ty, rfl, rfl⟩ | ⟨name, hSelf, hName, rfl⟩ |
    ⟨hSelf, hString, rfl⟩
  · cases ho
    exact h.name.trans (Except.ok.inj hClass')
  · rcases ClassScope.classOf_ok.mp hClass' with ⟨ty, rfl, _⟩ | ⟨name', _, hName', rfl⟩ |
      ⟨_, hString', _⟩
    · cases ho
      exact (hSelf _ rfl).elim
    · obtain rfl := Ty.object.inj (hName.symm.trans (hTy.trans hName'))
      exact h.qualify_eq name
    · cases hName.symm.trans (hTy.trans hString')
  · rcases ClassScope.classOf_ok.mp hClass' with ⟨ty, rfl, _⟩ | ⟨name', _, hName', _⟩ | ⟨_, _, rfl⟩
    · cases ho
      exact (hSelf _ rfl).elim
    · cases hString.symm.trans (hTy.trans hName')
    · rfl

/-- A reference to a field holds the class of the operand, the name of the field and its descriptor.
Names of variables are in none of them. -/
theorem fieldRef_eq (h : scope.Alike scope') {o o' : Operand} (ho : o.Alike names o')
    {field : String} {ty : Ty} {ref ref' : Stack.FieldRef}
    (hField : scope.fieldRef o field ty = .ok ref)
    (hField' : scope'.fieldRef o' field ty = .ok ref') : ref = ref' := by
  obtain ⟨className, hClass, rfl⟩ := ClassScope.fieldRef_ok.mp hField
  obtain ⟨className', hClass', rfl⟩ := ClassScope.fieldRef_ok.mp hField'
  rw [h.classOf_eq ho hClass hClass', h.descriptor_eq]

/-- A reference to a method is found from the class, the name and the types of the arguments, so that
renaming variables among the arguments leaves it as it is. -/
theorem methodRef_eq (h : scope.Alike scope') {arguments arguments' : List Operand}
    (hArguments : List.Forall₂ (Operand.Alike names) arguments arguments')
    (className name : String) (result : Ty) :
    scope.methodRef className name arguments result =
      scope'.methodRef className name arguments' result := by
  have hTypes : arguments.map Operand.ty = arguments'.map Operand.ty := by
    induction hArguments with
    | nil => rfl
    | cons hArgument _ ih => rw [List.map_cons, List.map_cons, hArgument.ty_eq, ih]
  have hParameters : ClassScope.methodRef.parameterTypes scope className name arguments =
      ClassScope.methodRef.parameterTypes scope' className name arguments' := by
    rw [ClassScope.methodRef_parameterTypes, ClassScope.methodRef_parameterTypes, h.name,
      h.parameterTypes name, hArguments.length_eq, hTypes]
  have hDescriptors : scope.descriptor = scope'.descriptor := funext h.descriptor_eq
  rw [ClassScope.methodRef, ClassScope.methodRef, hParameters, hDescriptors]

theorem methodHeader_eq (h : scope.Alike scope') {m m' : Method} {body : List Code.Instr}
    (hHead : m' = { m with body }) : methodHeader scope m = methodHeader scope' m' := by
  have hDescriptors : scope.descriptor = scope'.descriptor := funext h.descriptor_eq
  subst hHead
  unfold methodHeader
  rw [hDescriptors]
  rfl

end ClassScope.Alike

/-- Methods of classes that look the same, with one slot for names that stand for each other. The
texts of labels that stand for each other do so too. -/
structure Site.Alike (names : String → String → Prop) (labels : Label → Label → Prop)
    (texts : String → String → Prop) (site site' : Site) : Prop where
  scope : site.scope.Alike site'.scope
  isStatic : site.method.isStatic = site'.method.isStatic
  slots : ∀ name name', names name name' → site.frame.slot? name = site'.frame.slot? name'
  texts : ∀ l l', labels l l' → texts l.text l'.text

/-- The same objects wait for their constructors, and the labels of the comparisons still to come
stand for each other in turn. -/
structure Progress.Alike (names texts : String → String → Prop) (p p' : Progress) : Prop where
  pending : ∀ name name', names name name' → (name ∈ p.pending ↔ name' ∈ p'.pending)
  comparisons : ∀ n,
    texts (comparisonLabels (p.comparisons + n)).1 (comparisonLabels (p'.comparisons + n)).1 ∧
      texts (comparisonLabels (p.comparisons + n)).2 (comparisonLabels (p'.comparisons + n)).2

namespace Progress.Alike

variable {p p' : Progress}

/-- A value that is compared takes the next label of comparisons on both sides, and the labels that
remain stand for each other as before. -/
theorem compare (h : p.Alike names texts p') :
    Progress.Alike names texts { p with comparisons := p.comparisons + 1 }
      { p' with comparisons := p'.comparisons + 1 } where
  pending := h.pending
  comparisons n := by
    have hLater := h.comparisons (1 + n)
    rwa [← Nat.add_assoc, ← Nat.add_assoc] at hLater

/-- An object that no longer waits is taken out on both sides. Since names stand for each other one to
one, nothing else is taken out with it. -/
theorem removing (hUnique : Relator.BiUnique names) (h : p.Alike names texts p')
    {name name' : String} (hName : names name name') :
    Progress.Alike names texts { p with pending := p.pending.filter (· ≠ name) }
      { p' with pending := p'.pending.filter (· ≠ name') } where
  pending other other' hOther := by
    have hSame : other = name ↔ other' = name' := Relator.rel_eq hUnique hOther hName
    simp [h.pending other other' hOther, hSame]
  comparisons := h.comparisons

/-- An object that comes to wait does so on both sides, under names that stand for each other. That these
are unique is needed where the waiting ones are filtered. -/
theorem adding (hUnique : Relator.BiUnique names) (h : p.Alike names texts p')
    {name name' : String} (hName : names name name') :
    Progress.Alike names texts { p with pending := name :: p.pending.filter (· ≠ name) }
      { p' with pending := name' :: p'.pending.filter (· ≠ name') } where
  pending other other' hOther := by
    have hSame : other = name ↔ other' = name' := Relator.rel_eq hUnique hOther hName
    simp [h.pending other other' hOther, hSame]
  comparisons := h.comparisons

/-- An object waits on the one side exactly if the object that stands for it waits on the other side. -/
theorem contains (h : p.Alike names texts p') {name name' : String} (hName : names name name') :
    p.pending.contains name = p'.pending.contains name' := by
  simp [h.pending name name' hName]

end Progress.Alike

namespace Site.Alike

variable {site site' : Site} {p p' q q' : Progress} {code code' : List Stack.Instr}

theorem slot_eq (h : site.Alike names labels texts site') {name name' : String}
    (hName : names name name') {slot slot' : UInt16} (hSlot : site.slot name = .ok slot)
    (hSlot' : site'.slot name' = .ok slot') : slot = slot' := by
  have hFound := slot_ok.mp hSlot
  rw [h.slots name name' hName] at hFound
  exact Option.some.inj (hFound.symm.trans (slot_ok.mp hSlot'))

/-- Loading an operand is decided by its type and its slot, so that operands that differ in names only
are loaded by the very same code. -/
theorem load_eq (h : site.Alike names labels texts site') {o o' : Operand} (ho : o.Alike names o')
    (hLoad : site.load o = .ok code) (hLoad' : site'.load o' = .ok code') : code = code' := by
  induction ho generalizing code code' with
  | literal value ty =>
      rw [load_literal_ok.mp hLoad, load_literal_ok.mp hLoad']
  | «variable» hName ty =>
      obtain ⟨_, _, hKind, hSlot, rfl⟩ := load_variable_ok.mp hLoad
      obtain ⟨_, _, hKind', hSlot', rfl⟩ := load_variable_ok.mp hLoad'
      obtain rfl := Except.ok.inj (hKind.symm.trans hKind')
      rw [h.slot_eq hName hSlot hSlot']
  | element hArray _ ty ih =>
      obtain ⟨_, _, _, hKind, hSlot, hPlace, rfl⟩ := load_element_ok.mp hLoad
      obtain ⟨_, _, _, hKind', hSlot', hPlace', rfl⟩ := load_element_ok.mp hLoad'
      obtain rfl := Except.ok.inj (hKind.symm.trans hKind')
      rw [h.slot_eq hArray hSlot hSlot', ih hPlace hPlace']
  | self ty =>
      rw [(load_self_ok.mp hLoad).2, (load_self_ok.mp hLoad').2]
  | classRef name => exact (load_classRef_ok hLoad).elim

theorem loadAll_eq (h : site.Alike names labels texts site') {os os' : List Operand}
    (hos : List.Forall₂ (Operand.Alike names) os os') (hLoad : site.loadAll os = .ok code)
    (hLoad' : site'.loadAll os' = .ok code') : code = code' := by
  induction hos generalizing code code' with
  | nil => rw [loadAll_nil_ok.mp hLoad, loadAll_nil_ok.mp hLoad']
  | cons ho _ ih =>
      obtain ⟨_, _, hFirst, hOthers, rfl⟩ := loadAll_cons_ok.mp hLoad
      obtain ⟨_, _, hFirst', hOthers', rfl⟩ := loadAll_cons_ok.mp hLoad'
      rw [h.load_eq ho hFirst hFirst', ih hOthers hOthers']

/-- The code of an invocation has no names in it and no labels: slots have taken the place of names, and
the reference to the method comes from types. -/
theorem invocation_eq (h : site.Alike names labels texts site') {kind : Stack.InvokeKind}
    {className name : String} {receiverCode : List Stack.Instr} {arguments arguments' : List Operand}
    (hArguments : List.Forall₂ (Operand.Alike names) arguments arguments') {returnType : Ty}
    {pushes pushes' : Bool}
    (hCall : site.invocation kind className name receiverCode arguments returnType =
      .ok (code, pushes))
    (hCall' : site'.invocation kind className name receiverCode arguments' returnType =
      .ok (code', pushes')) : code = code' ∧ pushes = pushes' := by
  obtain ⟨_, hLoad, rfl, rfl⟩ := invocation_ok.mp hCall
  obtain ⟨_, hLoad', rfl, rfl⟩ := invocation_ok.mp hCall'
  rw [h.loadAll_eq hArguments hLoad hLoad', h.scope.methodRef_eq hArguments]
  exact ⟨rfl, rfl⟩

/-- Whether the receiver of a constructor call is on the stack already is asked by its name. The answers
agree, and what waits afterwards does too. -/
theorem specialReceiver_alike (hUnique : Relator.BiUnique names)
    (h : site.Alike names labels texts site') (hp : p.Alike names texts p') {o o' : Operand}
    (ho : o.Alike names o') {className className' : String}
    (hRun : (site.specialReceiver o).run p = .ok ((className, code), q))
    (hRun' : (site'.specialReceiver o').run p' = .ok ((className', code'), q')) :
    className = className' ∧ code = code' ∧ q.Alike names texts q' := by
  rcases specialReceiver_run.mp hRun with ⟨_, _, rfl, hPending, hClass, rfl, rfl⟩ |
    ⟨_, _, rfl, hPending, hClass, hLoad, rfl⟩ | ⟨_, rfl, rfl, hLoad, rfl⟩ |
    ⟨hNotVariable, hNotSelf, hClass, hLoad, rfl⟩
  · cases ho with
    | «variable» hName ty =>
        rcases specialReceiver_run.mp hRun' with ⟨_, _, ⟨⟩, _, hClass', rfl, rfl⟩ |
          ⟨_, _, ⟨⟩, hPending', _⟩ | ⟨_, ⟨⟩, _⟩ | ⟨hNot, _⟩
        · exact ⟨h.scope.classOf_eq (.variable hName _) hClass hClass', rfl,
            hp.removing hUnique hName⟩
        · rw [hp.contains hName, hPending'] at hPending
          cases hPending
        · exact (hNot _ _ rfl).elim
  · cases ho with
    | «variable» hName ty =>
        rcases specialReceiver_run.mp hRun' with ⟨_, _, ⟨⟩, hPending', _⟩ |
          ⟨_, _, ⟨⟩, _, hClass', hLoad', rfl⟩ | ⟨_, ⟨⟩, _⟩ | ⟨hNot, _⟩
        · rw [hp.contains hName, hPending'] at hPending
          cases hPending
        · exact ⟨h.scope.classOf_eq (.variable hName _) hClass hClass',
            h.load_eq (.variable hName _) hLoad hLoad', hp.removing hUnique hName⟩
        · exact (hNot _ _ rfl).elim
  · cases ho with
    | self ty =>
        rcases specialReceiver_run.mp hRun' with ⟨_, _, ⟨⟩, _⟩ | ⟨_, _, ⟨⟩, _⟩ |
          ⟨_, ⟨⟩, rfl, hLoad', rfl⟩ | ⟨_, hNot, _⟩
        · exact ⟨h.scope.superName, h.load_eq (.self _) hLoad hLoad', hp⟩
        · exact (hNot _ rfl).elim
  · rcases specialReceiver_run.mp hRun' with ⟨_, _, rfl, _⟩ | ⟨_, _, rfl, _⟩ | ⟨_, rfl, _⟩ |
      ⟨_, _, hClass', hLoad', rfl⟩
    · cases ho
      exact (hNotVariable _ _ rfl).elim
    · cases ho
      exact (hNotVariable _ _ rfl).elim
    · cases ho
      exact (hNotSelf _ rfl).elim
    · exact ⟨h.scope.classOf_eq ho hClass hClass', h.load_eq ho hLoad hLoad', hp⟩

/-- Calls hold no labels, so that they are selected alike up to nothing: the code on both sides is the
same. -/
theorem call_alike (hUnique : Relator.BiUnique names) (h : site.Alike names labels texts site')
    (hp : p.Alike names texts p') {i i' : Code.Instr} (hi : i.Alike names labels i')
    {pushes pushes' : Bool} (hRun : (site.call i).run p = .ok ((code, pushes), q))
    (hRun' : (site'.call i').run p' = .ok ((code', pushes'), q')) :
    code = code' ∧ pushes = pushes' ∧ q.Alike names texts q' := by
  cases hi with
  | call kind hReceiver method hArguments returnType =>
      cases kind with
      | new =>
          cases hArray : returnType.isArray with
          | true =>
              obtain ⟨hNew, rfl, rfl⟩ := (call_newArray_run hArray).mp hRun
              obtain ⟨hNew', rfl, rfl⟩ := (call_newArray_run hArray).mp hRun'
              obtain ⟨_, _, _, rfl, hLoad, rfl⟩ := newArray_ok.mp hNew
              obtain ⟨_, _, _, rfl, hLoad', rfl⟩ := newArray_ok.mp hNew'
              cases hArguments with
              | cons hSize _ => exact ⟨by rw [h.load_eq hSize hLoad hLoad'], rfl, hp⟩
          | false =>
              obtain ⟨_, hClass, rfl, rfl, rfl⟩ := (call_newObject_run hArray).mp hRun
              obtain ⟨_, hClass', rfl, rfl, rfl⟩ := (call_newObject_run hArray).mp hRun'
              exact ⟨by rw [h.scope.classOf_eq hReceiver hClass hClass'], rfl, hp⟩
      | arrayLength =>
          obtain ⟨_, hLoad, rfl, rfl, rfl⟩ := call_arrayLength_run.mp hRun
          obtain ⟨_, hLoad', rfl, rfl, rfl⟩ := call_arrayLength_run.mp hRun'
          exact ⟨by rw [h.load_eq hReceiver hLoad hLoad'], rfl, hp⟩
      | invokeStatic =>
          obtain ⟨_, _, hClass, rfl, hCode, rfl⟩ := call_invokeStatic_run.mp hRun
          obtain ⟨_, _, hClass', hName, hCode', rfl⟩ := call_invokeStatic_run.mp hRun'
          obtain rfl := Option.some.inj hName
          rw [← h.scope.classOf_eq hReceiver hClass hClass'] at hCode'
          obtain ⟨hSame, hPushes⟩ := h.invocation_eq hArguments hCode hCode'
          exact ⟨hSame, hPushes, hp⟩
      | invokeVirtual =>
          obtain ⟨_, _, _, hClass, rfl, hLoad, hCode, rfl⟩ := call_invokeVirtual_run.mp hRun
          obtain ⟨_, _, _, hClass', hName, hLoad', hCode', rfl⟩ := call_invokeVirtual_run.mp hRun'
          obtain rfl := Option.some.inj hName
          rw [← h.scope.classOf_eq hReceiver hClass hClass', ← h.load_eq hReceiver hLoad hLoad']
            at hCode'
          obtain ⟨hSame, hPushes⟩ := h.invocation_eq hArguments hCode hCode'
          exact ⟨hSame, hPushes, hp⟩
      | invokeSpecial =>
          obtain ⟨_, _, _, rfl, hSpecial, hCode⟩ := call_invokeSpecial_run.mp hRun
          obtain ⟨_, _, _, hName, hSpecial', hCode'⟩ := call_invokeSpecial_run.mp hRun'
          obtain rfl := Option.some.inj hName
          obtain ⟨rfl, rfl, hq⟩ := h.specialReceiver_alike hUnique hp hReceiver hSpecial hSpecial'
          obtain ⟨hSame, hPushes⟩ := h.invocation_eq hArguments hCode hCode'
          exact ⟨hSame, hPushes, hq⟩
  | _ => exact (select_throw_ok hRun).elim

/-- The code of a comparison jumps within itself, to labels with the numbers of the two sides. -/
theorem comparisonCode_alike (hp : p.Alike names texts p') (comparison : Stack.Comparison) :
    Stack.CodeAlike texts (comparisonCode comparison (comparisonLabels p.comparisons))
      (comparisonCode comparison (comparisonLabels p'.comparisons)) := by
  obtain ⟨hTrue, hEnd⟩ := hp.comparisons 0
  have hPush : ∀ value, Stack.Instr.Alike texts (pushInt value) (pushInt value) := by
    intro value
    cases (Stack.straight_pushInt value).alike with
    | cons hInstr _ => exact hInstr
  exact .cons (.ifInts comparison hTrue) (.cons (hPush 0) (.cons (.goto hEnd) (.cons (.label hTrue)
    (.cons (hPush 1) (.cons (.label hEnd) .nil)))))

/-- The code of a value may compare, and then it has labels of its own, the next ones on each side. Apart
from these there is no difference. -/
theorem value_alike (hUnique : Relator.BiUnique names) (h : site.Alike names labels texts site')
    (hp : p.Alike names texts p') {i i' : Code.Instr} (hi : i.Alike names labels i')
    (hRun : (site.value i).run p = .ok (code, q)) (hRun' : (site'.value i').run p' = .ok (code', q')) :
    Stack.CodeAlike texts code code' ∧ q.Alike names texts q' := by
  cases hi with
  | operand ho =>
      obtain ⟨hLoad, rfl⟩ := value_operand_run.mp hRun
      obtain ⟨hLoad', rfl⟩ := value_operand_run.mp hRun'
      rw [← h.load_eq ho hLoad hLoad']
      exact ⟨(straight_load hLoad).alike, hp⟩
  | binary op hLeft hRight ty =>
      rw [value_binary] at hRun hRun'
      obtain ⟨_, _, hLoad, hLoadRight, hOp⟩ := binary_run.mp hRun
      obtain ⟨_, _, hLoad', hLoadRight', hOp'⟩ := binary_run.mp hRun'
      rw [← h.load_eq hLeft hLoad hLoad', ← h.load_eq hRight hLoadRight hLoadRight'] at hOp'
      have hOperands := (straight_load hLoad).append (straight_load hLoadRight)
      rcases hOp with ⟨_, hArithmetic, rfl, rfl⟩ | ⟨_, hComparison, rfl, rfl⟩
      · rcases hOp' with ⟨_, hArithmetic', rfl, rfl⟩ | ⟨_, hComparison, _⟩
        · obtain rfl := Option.some.inj (hArithmetic.symm.trans hArithmetic')
          exact ⟨(hOperands.append (.single rfl rfl)).alike, hp⟩
        · cases op <;> first | cases hArithmetic; done | cases hComparison
      · rcases hOp' with ⟨_, hArithmetic, _⟩ | ⟨_, hComparison', rfl, rfl⟩
        · cases op <;> first | cases hArithmetic; done | cases hComparison
        · obtain rfl := Except.ok.inj (hComparison.symm.trans hComparison')
          exact ⟨List.rel_append hOperands.alike (comparisonCode_alike hp _), hp.compare⟩
  | not ho ty =>
      obtain ⟨_, hLoad, rfl, rfl⟩ := value_not_run.mp hRun
      obtain ⟨_, hLoad', rfl, rfl⟩ := value_not_run.mp hRun'
      rw [← h.load_eq ho hLoad hLoad']
      have hNot : Straight [pushInt 1, .arithmetic .xor] :=
        (Stack.straight_pushInt 1).append (.single rfl rfl)
      exact ⟨((straight_load hLoad).append hNot).alike, hp⟩
  | getField ho field ty =>
      obtain ⟨_, _, hField, hLoad, rfl, rfl⟩ := value_getField_run.mp hRun
      obtain ⟨_, _, hField', hLoad', rfl, rfl⟩ := value_getField_run.mp hRun'
      rw [← h.load_eq ho hLoad hLoad', ← h.scope.fieldRef_eq ho hField hField']
      exact ⟨((straight_load hLoad).append (.single rfl rfl)).alike, hp⟩
  | call kind hReceiver method hArguments returnType =>
      rw [value_call, callValue_run] at hRun hRun'
      obtain ⟨rfl, -, hq⟩ :=
        h.call_alike hUnique hp (.call kind hReceiver method hArguments returnType) hRun hRun'
      exact ⟨(straight_call hRun).alike, hq⟩
  | _ => exact (select_throw_ok hRun).elim

/-- Whether a right-hand side makes a new object can be told without looking at names, and so both sides
take the same way. -/
theorem allocated?_alike {i i' : Code.Instr} (hi : i.Alike names labels i') :
    (allocated? i = none ∧ allocated? i' = none) ∨
      ∃ receiver receiver', allocated? i = some receiver ∧ allocated? i' = some receiver' ∧
        receiver.Alike names receiver' := by
  cases hi with
  | call kind hReceiver method hArguments returnType =>
      cases kind with
      | new =>
          cases hArray : returnType.isArray with
          | true => exact .inl ⟨by simp [allocated?, hArray], by simp [allocated?, hArray]⟩
          | false =>
              exact .inr ⟨_, _, by simp [allocated?, hArray], by simp [allocated?, hArray], hReceiver⟩
      | _ => exact .inl ⟨rfl, rfl⟩
  | _ => exact .inl ⟨rfl, rfl⟩

/-- An assignment stores to a variable or to an item of an array. The slot is the same on both sides, so
that only the labels of a comparison in the value may differ. -/
theorem assign_alike (hUnique : Relator.BiUnique names) (h : site.Alike names labels texts site')
    (hp : p.Alike names texts p') {dest dest' : Operand} {rhs rhs' : Code.Instr}
    (hDest : dest.Alike names dest') (hRhs : rhs.Alike names labels rhs')
    (hRun : (site.assign dest rhs).run p = .ok (code, q))
    (hRun' : (site'.assign dest' rhs').run p' = .ok (code', q')) :
    Stack.CodeAlike texts code code' ∧ q.Alike names texts q' := by
  cases hDest with
  | «variable» hName ty =>
      rcases allocated?_alike hRhs with ⟨hNone, hNone'⟩ | ⟨_, _, hNew, hNew', hReceiver⟩
      · obtain ⟨_, _, kind, hSlot, hValue, hKind, rfl⟩ := (assign_variable_run hNone).mp hRun
        obtain ⟨_, _, _, hSlot', hValue', hKind', rfl⟩ := (assign_variable_run hNone').mp hRun'
        obtain rfl := Except.ok.inj (hKind.symm.trans hKind')
        rw [← h.slot_eq hName hSlot hSlot']
        obtain ⟨hCode, hq⟩ := h.value_alike hUnique hp hRhs hValue hValue'
        exact ⟨List.rel_append hCode (Stack.straight_storeSlot kind _).alike, hq⟩
      · obtain ⟨slot, className, hSlot, hClass, rfl, rfl⟩ := (assign_newObject_run hNew).mp hRun
        obtain ⟨_, _, hSlot', hClass', rfl, rfl⟩ := (assign_newObject_run hNew').mp hRun'
        rw [← h.slot_eq hName hSlot hSlot', ← h.scope.classOf_eq hReceiver hClass hClass']
        have hNewCode : Straight [.new className, .dup] :=
          (Straight.single (i := .new className) rfl rfl).append (.single rfl rfl)
        exact ⟨(hNewCode.append (Stack.straight_storeSlot .reference slot)).alike,
          hp.adding hUnique hName⟩
  | element hArray hPlace ty =>
      obtain ⟨kind, slot, _, _, hKind, hSlot, hLoad, hValue, rfl⟩ := assign_element_run.mp hRun
      obtain ⟨_, _, _, _, hKind', hSlot', hLoad', hValue', rfl⟩ := assign_element_run.mp hRun'
      obtain rfl := Except.ok.inj (hKind.symm.trans hKind')
      rw [← h.slot_eq hArray hSlot hSlot', ← h.load_eq hPlace hLoad hLoad']
      obtain ⟨hCode, hq⟩ := h.value_alike hUnique hp hRhs hValue hValue'
      have hPlaceCode := (Stack.straight_loadSlot .reference slot).append (straight_load hLoad)
      have hStore : Straight [.arrayStore kind] := .single rfl rfl
      exact ⟨List.rel_append (List.rel_append hPlaceCode.alike hCode) hStore.alike, hq⟩
  | _ => exact (select_throw_ok hRun).elim

/-- Conditional jumps go to labels that stand for each other; what they test is loaded by the same
code. -/
theorem branch_alike (h : site.Alike names labels texts site') {c c' : Condition}
    (hc : c.Alike names c') {target target' : String} (hTarget : texts target target')
    (hRun : site.branch c target = .ok code) (hRun' : site'.branch c' target' = .ok code') :
    Stack.CodeAlike texts code code' := by
  cases hc with
  | single ho =>
      obtain ⟨_, hLoad, rfl⟩ := branch_single_ok.mp hRun
      obtain ⟨_, hLoad', rfl⟩ := branch_single_ok.mp hRun'
      rw [← h.load_eq ho hLoad hLoad']
      exact List.rel_append (straight_load hLoad).alike (.cons (.ifZero .ne hTarget) .nil)
  | compare op hLeft hRight =>
      obtain ⟨comparison, _, _, hComparison, hLoad, hLoadRight, rfl⟩ := branch_compare_ok.mp hRun
      obtain ⟨_, _, _, hComparison', hLoad', hLoadRight', rfl⟩ := branch_compare_ok.mp hRun'
      obtain rfl := Except.ok.inj (hComparison.symm.trans hComparison')
      rw [← h.load_eq hLeft hLoad hLoad', ← h.load_eq hRight hLoadRight hLoadRight']
      have hOperands := (straight_load hLoad).append (straight_load hLoadRight)
      exact List.rel_append hOperands.alike (.cons (.ifInts comparison hTarget) .nil)

theorem mere_alike (hUnique : Relator.BiUnique names) (h : site.Alike names labels texts site')
    (hp : p.Alike names texts p') {i i' : Code.Instr} (hi : i.Alike names labels i')
    (hMere : isMere i = true) (hMere' : isMere i' = true)
    (hRun : (site.instr i).run p = .ok (code, q)) (hRun' : (site'.instr i').run p' = .ok (code', q')) :
    Stack.CodeAlike texts code code' ∧ q.Alike names texts q' := by
  obtain ⟨_, hValue, rfl⟩ := (instr_mere_run hMere).mp hRun
  obtain ⟨_, hValue', rfl⟩ := (instr_mere_run hMere').mp hRun'
  obtain ⟨hCode, hq⟩ := h.value_alike hUnique hp hi hValue hValue'
  have hPop : Straight [.pop] := .single rfl rfl
  exact ⟨List.rel_append hCode hPop.alike, hq⟩

/-- One instruction, whichever it is: the code for it differs in labels that stand for each other, and
the selection goes on from states that are alike. -/
theorem instr_alike (hUnique : Relator.BiUnique names) (h : site.Alike names labels texts site')
    (hp : p.Alike names texts p') {i i' : Code.Instr} (hi : i.Alike names labels i')
    (hRun : (site.instr i).run p = .ok (code, q)) (hRun' : (site'.instr i').run p' = .ok (code', q')) :
    Stack.CodeAlike texts code code' ∧ q.Alike names texts q' := by
  cases hi with
  | assign hDest ty hRhs => exact h.assign_alike hUnique hp hDest hRhs hRun hRun'
  | operand ho => exact h.mere_alike hUnique hp (.operand ho) rfl rfl hRun hRun'
  | binary op hLeft hRight ty =>
      exact h.mere_alike hUnique hp (.binary op hLeft hRight ty) rfl rfl hRun hRun'
  | not ho ty => exact h.mere_alike hUnique hp (.not ho ty) rfl rfl hRun hRun'
  | getField ho field ty =>
      exact h.mere_alike hUnique hp (.getField ho field ty) rfl rfl hRun hRun'
  | putField ho field ty hValue =>
      obtain ⟨_, _, _, hField, hObject, hLoad, rfl, rfl⟩ := instr_putField_run.mp hRun
      obtain ⟨_, _, _, hField', hObject', hLoad', rfl, rfl⟩ := instr_putField_run.mp hRun'
      rw [← h.load_eq ho hObject hObject', ← h.load_eq hValue hLoad hLoad',
        ← h.scope.fieldRef_eq ho hField hField']
      have hOperands := (straight_load hObject).append (straight_load hLoad)
      exact ⟨(hOperands.append (.single rfl rfl)).alike, hp⟩
  | call kind hReceiver method hArguments returnType =>
      obtain ⟨_, pushes, hCall, rfl⟩ := callStatement_run.mp hRun
      obtain ⟨_, _, hCall', rfl⟩ := callStatement_run.mp hRun'
      obtain ⟨rfl, rfl, hq⟩ :=
        h.call_alike hUnique hp (.call kind hReceiver method hArguments returnType) hCall hCall'
      have hPopped := (straight_call hCall).append (.single (i := .pop) rfl rfl)
      cases pushes with
      | true => exact ⟨hPopped.alike, hq⟩
      | false => exact ⟨(straight_call hCall).alike, hq⟩
  | retNone ty =>
      obtain ⟨hRet, rfl⟩ := instr_ret_run.mp hRun
      obtain ⟨hRet', rfl⟩ := instr_ret_run.mp hRun'
      rw [ret_none_ok.mp hRet, ret_none_ok.mp hRet']
      have hReturn : Straight [.ret] := .single rfl rfl
      exact ⟨hReturn.alike, hp⟩
  | retSome ho ty =>
      obtain ⟨hRet, rfl⟩ := instr_ret_run.mp hRun
      obtain ⟨hRet', rfl⟩ := instr_ret_run.mp hRun'
      obtain ⟨_, _, hLoad, hKind, rfl⟩ := ret_some_ok.mp hRet
      obtain ⟨_, _, hLoad', hKind', rfl⟩ := ret_some_ok.mp hRet'
      obtain rfl := Except.ok.inj (hKind.symm.trans hKind')
      rw [← h.load_eq ho hLoad hLoad']
      exact ⟨((straight_load hLoad).append (.single rfl rfl)).alike, hp⟩
  | branch hc hTarget =>
      obtain ⟨hBranch, rfl⟩ := instr_branch_run.mp hRun
      obtain ⟨hBranch', rfl⟩ := instr_branch_run.mp hRun'
      exact ⟨h.branch_alike hc (h.texts _ _ hTarget) hBranch hBranch', hp⟩
  | goto hTarget =>
      obtain ⟨rfl, rfl⟩ := instr_goto_run.mp hRun
      obtain ⟨rfl, rfl⟩ := instr_goto_run.mp hRun'
      exact ⟨.cons (.goto (h.texts _ _ hTarget)) .nil, hp⟩
  | label hLabel =>
      obtain ⟨rfl, rfl⟩ := instr_label_run.mp hRun
      obtain ⟨rfl, rfl⟩ := instr_label_run.mp hRun'
      exact ⟨.cons (.label (h.texts _ _ hLabel)) .nil, hp⟩

/-- The code of a body by induction on its instructions, each of which hands on progress that is alike to
the rest. -/
theorem codeOf_alike (hUnique : Relator.BiUnique names) (h : site.Alike names labels texts site')
    (hp : p.Alike names texts p') {source source' : List Code.Instr}
    (hSource : Code.CodeAlike names labels source source')
    (hRun : (codeOf site source).run p = .ok (code, q))
    (hRun' : (codeOf site' source').run p' = .ok (code', q')) :
    Stack.CodeAlike texts code code' := by
  induction hSource generalizing p p' code code' with
  | nil =>
      obtain ⟨rfl, rfl⟩ := codeOf_nil_run.mp hRun
      obtain ⟨rfl, rfl⟩ := codeOf_nil_run.mp hRun'
      exact .nil
  | cons hInstr _ ih =>
      obtain ⟨_, _, _, hFirst, hRest, rfl⟩ := codeOf_cons_run.mp hRun
      obtain ⟨_, _, _, hFirst', hRest', rfl⟩ := codeOf_cons_run.mp hRun'
      obtain ⟨hCode, hp₁⟩ := h.instr_alike hUnique hp hInstr hFirst hFirst'
      exact List.rel_append hCode (ih hp₁ hRest hRest')

end Site.Alike

end MiniJava.Assembly
