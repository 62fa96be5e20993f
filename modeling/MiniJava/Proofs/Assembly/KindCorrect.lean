import MiniJava.Proofs.Assembly.Entry
import MiniJava.Proofs.Assembly.Kinds

/-! Compiled methods are right in their kinds. Every instruction finds values of the kinds that it needs,
on the stack and in the slots. -/

namespace MiniJava.Assembly

open Code (Context Method Ty)
open Lowering (Declares typed_method method_head exists_source)
open Source (MethodDecl Program SymbolTable)
open Stack (Cells Kind KindCorrect)

/-- The kinds in the slots with which a method starts: those of its receiver and of its parameters, in
their order, and those of its locals, as if they had been stored already. -/
def entryKinds (m : MethodDecl) (frame : Frame) : Nat → Option Kind :=
  entrySlots m frame .reference fun d => (Ty.ofSource d.ty).kind

section Methods

variable {program : Program} {m : MethodDecl} {lowered : Method} {fresh fresh' : Lowering.Fresh}
  {frame : Frame}

/-- The declared variables have their kinds when a method starts, so what is known of slots then is true
of them. -/
theorem slotKinds_le_entryKinds (hDistinct : (m.declarations.map (·.name)).Nodup)
    (h : (Lowering.method (.ofProgram program) m).run fresh = .ok lowered fresh') {scope : ClassScope}
    (hLays : Frame.Lays lowered.receiverSlots (Frame.order lowered) frame)
    {typeOf : String → Option Ty} (hDeclares : Declares (m.scope program) typeOf) {slot : Nat} {kind : Kind}
    (hKind : slotKinds ⟨scope, lowered, frame⟩ ((m.scope program).context typeOf)
      (m.scope program).declared slot = some kind) :
    entryKinds m frame slot = some kind := by
  unfold slotKinds at hKind
  dsimp only at hKind
  split_ifs at hKind with hReceiver
  · obtain rfl := Option.some.inj hKind
    rw [receiverSlots_method h] at hReceiver
    split_ifs at hReceiver with hStatic
    · omega
    · obtain rfl : slot = 0 := by omega
      exact entrySlots_receiver (Bool.eq_false_of_not_eq_true hStatic)
  · obtain ⟨name, hName, hKnown⟩ := Option.bind_eq_some_iff.mp hKind
    split_ifs at hKnown with hDeclared
    obtain ⟨d, hLookup⟩ := Option.isSome_iff_exists.mp hDeclared
    change (typeOf name).map Ty.kind = some kind at hKnown
    rw [hDeclares name d hLookup, Option.map_some, Option.some.injEq] at hKnown
    subst hKnown
    obtain ⟨number, hNumber, hSame⟩ := Option.map_eq_some_iff.mp (hLays.number hName)
    have hSlot : number.toNat = slot := by omega
    rw [← Lowering.name_of_lookup? hLookup] at hNumber
    rw [← hSlot]
    exact entrySlots_declared h hDistinct hLays (Lowering.mem_of_lookup? hLookup) hNumber

/-- A method of a well-typed program is selected for what its code is typed against: the same class, the
same parameters, and slots for all its names. -/
theorem suits {withConstructor : Bool} {unit : Code.ClassUnit} {superName : String}
    (hTyped : program.WellTyped) (hUnit : Lowering.ofProgram withConstructor program = .ok unit)
    (hAlone : Alone unit) (h : (Lowering.method (.ofProgram program) m).run fresh = .ok lowered fresh')
    (hFrame : Frame.ofMethod lowered = .ok frame) (typeOf : String → Option Ty) :
    Site.Suits ⟨.ofUnit superName unit, lowered, frame⟩ ((m.scope program).context typeOf) where
  lays := Frame.lays_of_ofMethod hFrame
  isStatic := (method_head h).2.1
  className := by
    obtain ⟨_, _, _, rfl⟩ := Lowering.ofProgram_ok.mp hUnit
    rfl
  alone := hAlone
  parameters name found hFound := by
    obtain ⟨methods, _, hMethods, rfl⟩ := Lowering.ofProgram_ok.mp hUnit
    have hName : found.name = name := by simpa using List.find?_some hFound
    obtain ⟨source, hSource, _, _, hLowered⟩ := exists_source hMethods (List.mem_of_find?_eq_some hFound)
    obtain ⟨hSame, -, hParameters, -⟩ := method_head hLowered
    have hSignature := Lowering.method?_eq hTyped.distinct hSource
    rw [← hSame, hName] at hSignature
    change ((SymbolTable.ofProgram program).method? name).map _ = _
    rw [hSignature, Method.parameterTypes, hParameters, List.map_map]
    rfl

/-- The code of one method is right in its kinds, from the slots that its parameters and locals have when
it starts. -/
theorem kindCorrect_method {withConstructor : Bool} {unit : Code.ClassUnit} {superName : String}
    (hTyped : program.WellTyped) (hm : m ∈ program.decl.methods)
    (hUnit : Lowering.ofProgram withConstructor program = .ok unit) (hAlone : Alone unit)
    (h : (Lowering.method (.ofProgram program) m).run fresh = .ok lowered fresh')
    (hFrame : Frame.ofMethod lowered = .ok frame) {comparisons : Nat} {body : List Stack.Instr}
    {progress : Progress} (hBody : (codeOf ⟨.ofUnit superName unit, lowered, frame⟩ lowered.body).run
      ⟨comparisons, []⟩ = .ok (body, progress)) :
    KindCorrect body ⟨[], entryKinds m frame⟩ := by
  obtain ⟨typeOf, hDeclares, hCode⟩ := typed_method hTyped hm h
  have hFound := Lowering.method?_eq hTyped.distinct hm
  obtain ⟨_, _, hAssigned, -⟩ := Lowering.assigns_method hFound h (m.scope program).declared (le_refl _)
  have hSuits : Site.Suits ⟨.ofUnit superName unit, lowered, frame⟩ ((m.scope program).context typeOf) :=
    suits hTyped hUnit hAlone h hFrame typeOf
  obtain ⟨bases, hFlows⟩ :=
    flows_codeOf hSuits (Lowering.complete_method h) hCode hAssigned rfl hBody
  obtain ⟨atLabel, hComparisons, hTexts⟩ := exists_atLabel bases
    (fun id => ⟨.int :: (bases id).stack, (bases id).slots⟩)
    (fun l => betweenInstrs ⟨.ofUnit superName unit, lowered, frame⟩ ((m.scope program).context typeOf) _)
  obtain ⟨state', hFlow⟩ := hFlows atLabel (fun id _ _ => hComparisons id) hTexts
    (some (betweenInstrs _ _ _)) fun cells hCells => (Option.some.inj hCells).symm
  refine Stack.kindCorrect_of_flows hFlow ⟨rfl, fun slot kind hKind => ?_⟩
  exact slotKinds_le_entryKinds (hTyped.methods m hm).distinct h hSuits.lays hDeclares hKind

/-- What is right about the code of a method, which begins with nothing on the stack and with values in
the slots of its receiver, its parameters and its locals. -/
def MethodCorrect (scope : ClassScope) (ms : List Method) (source : MethodDecl) (block : Stack.Block) :
    Prop :=
  ∃ m ∈ ms, ∃ frame, m.name = source.name ∧ Frame.ofMethod m = .ok frame ∧
    block.header = methodHeader scope m ∧ KindCorrect block.body ⟨[], entryKinds source frame⟩

/-- The methods of a class one after the other, by induction: each is compiled with the counters that
those before it have left, which its kinds do not depend on. -/
theorem methodCorrect_all {withConstructor : Bool} {unit : Code.ClassUnit} {superName : String}
    (hTyped : program.WellTyped) (hUnit : Lowering.ofProgram withConstructor program = .ok unit)
    (hAlone : Alone unit) {ms : List MethodDecl} (hms : ∀ m ∈ ms, m ∈ program.decl.methods)
    {methods : List Method} (h : (Lowering.methods (.ofProgram program) ms).run fresh = .ok methods fresh')
    {comparisons : Nat} {blocks : List Stack.Block}
    (hBlocks : methodBlocks (.ofUnit superName unit) comparisons methods = .ok blocks) :
    List.Forall₂ (MethodCorrect (.ofUnit superName unit) methods) ms blocks := by
  induction ms generalizing fresh methods comparisons blocks with
  | nil =>
      obtain ⟨rfl, -⟩ := Lowering.methods_nil_run.mp h
      rw [methodBlocks_nil_ok.mp hBlocks]
      exact .nil
  | cons m rest ih =>
      obtain ⟨first, fresh₁, others, hFirst, hOthers, rfl⟩ := Lowering.methods_cons_run.mp h
      obtain ⟨block, after, otherBlocks, hBlock, hOtherBlocks, rfl⟩ := methodBlocks_cons_ok.mp hBlocks
      obtain ⟨hHead, hRest⟩ := List.forall_mem_cons.mp hms
      obtain ⟨frame, body, progress, usage, hFrame, hBody, -, rfl, -⟩ := methodBlock_ok.mp hBlock
      refine .cons ⟨first, List.mem_cons_self, frame, (method_head hFirst).1, hFrame, rfl,
        kindCorrect_method hTyped hHead hUnit hAlone hFirst hFrame hBody⟩ ?_
      refine (ih hRest hOthers hOtherBlocks).imp ?_
      rintro source other ⟨found, hFound, hCorrect⟩
      exact ⟨found, List.mem_cons_of_mem _ hFound, hCorrect⟩

end Methods

/-- The constructor that is added loads its receiver and calls the one of the class above, with a
reference in slot 0 and nowhere else. -/
theorem kindCorrect_defaultConstructor (scope : ClassScope) :
    KindCorrect (defaultConstructor scope).body
      ⟨[], fun slot => if slot = 0 then some .reference else none⟩ := by
  let slots (slot : Nat) : Option Kind := if slot = 0 then some .reference else none
  have hSelf : Stack.Turns (fun _ => ⟨[], slots⟩) slots [] [Stack.loadSlot .reference 0] [.reference] :=
    Stack.turns_loadSlot rfl
  have hInvoke : Stack.Turns (fun _ => ⟨[], slots⟩) slots [.reference]
      [.invoke .special ⟨scope.superName, "<init>", [], "V"⟩] [] :=
    Stack.flows_instr rfl ⟨⟨[], rfl⟩, nofun⟩ nofun
  have hRet : Stack.kinds.Flows (fun _ => ⟨[], slots⟩) (some ⟨[], slots⟩) [.ret] none :=
    Stack.flows_instr rfl ⟨⟨[], rfl⟩, nofun⟩ nofun
  exact Stack.kindCorrect_of_flows (Analysis.Flows.append (hSelf.append hInvoke) hRet) (le_refl _)

/-- The methods of a well-typed program that compiles are right in their kinds, if no other class goes
by the name of the class: on every way to an instruction there are values of the kinds that it needs, on
the stack and in the slot that it loads, and all ways to it come with the same kinds on the stack. -/
theorem kind_correct {withConstructor : Bool} {program : Program} {unit : Code.ClassUnit}
    {superName : String} {blocks : List Stack.Block} (hTyped : program.WellTyped)
    (hUnit : Lowering.ofProgram withConstructor program = .ok unit) (hAlone : Alone unit)
    (hBlocks : methodBlocks (.ofUnit superName unit) 0 unit.methods = .ok blocks) :
    List.Forall₂ (MethodCorrect (.ofUnit superName unit) unit.methods) program.decl.methods blocks ∧
      KindCorrect (defaultConstructor (.ofUnit superName unit)).body
        ⟨[], fun slot => if slot = 0 then some .reference else none⟩ := by
  refine ⟨?_, kindCorrect_defaultConstructor _⟩
  obtain ⟨methods, _, hMethods, rfl⟩ := Lowering.ofProgram_ok.mp hUnit
  exact methodCorrect_all hTyped hUnit hAlone (fun _ hm => hm) hMethods hBlocks

/-- The method with a loop is right in its kinds, with an integer in the slot of its parameter. -/
theorem spin_kind_correct :
    Spin.program.WellTyped ∧ Alone Spin.unit ∧
      KindCorrect Spin.body ⟨[], fun slot => if slot = 0 then some .int else none⟩ := by
  have hTyped : Spin.program.WellTyped := by decide
  have hAlone : Alone Spin.unit := alone_of_no_slash (by decide)
  refine ⟨hTyped, hAlone, ?_⟩
  obtain ⟨hMethods, -⟩ := kind_correct hTyped Spin.lowered hAlone (Spin.emitted "java/lang/Object")
  cases hMethods with
  | cons hMethod _ =>
      obtain ⟨_, _, frame, _, _, _, hCorrect⟩ := hMethod
      have hEntry (source : MethodDecl) (hSource : Spin.program.decl.methods = [source]) :
          entryKinds source frame = fun slot => if slot = 0 then some .int else none := by
        obtain rfl := (List.singleton_inj.mp hSource).symm
        funext slot
        cases slot <;> rfl
      exact hEntry _ rfl ▸ hCorrect

namespace Alias

/-- `static int foo(int x) { return x; }`. -/
def foo : MethodDecl where
  name := "foo"
  isPublic := false
  isStatic := true
  returnType := .int
  parameters := [.plain "x" .int]
  locals := []
  body := [.ret (some (.ident "x" .int))]

/-- `static void bar(int[] xs) { b.foo(xs); }`. -/
def bar : MethodDecl where
  name := "bar"
  isPublic := false
  isStatic := true
  returnType := .void
  parameters := [.plain "xs" .intArray]
  locals := []
  body := [.eval (.call (.ident "b" (.object "b")) "foo" [.ident "xs" .intArray] .int)]

/-- A class that goes by the name of the class `a.b` that it imports. -/
def program : Program := ⟨[["a", "b"]], ⟨"a/b", none, [], [foo, bar]⟩⟩

/-- The method that takes an integer, as it is lowered. -/
def loweredFoo : Method where
  name := "foo"
  isPublic := false
  isStatic := true
  isVarargs := false
  parameters := [⟨"x", .int32⟩]
  returnType := .int32
  body := [.ret (some (.variable "x" .int32)) .int32]

/-- The call of a method of the class `b`, to which an array is passed. Its result is taken to be an
integer. -/
def loweredBar : Method where
  name := "bar"
  isPublic := false
  isStatic := true
  isVarargs := false
  parameters := [⟨"xs", .intArray⟩]
  returnType := .void
  body := [.call .invokeStatic (.classRef "b") (some "foo") [.variable "xs" .intArray] .int32,
    .ret none .void]

/-- The lowered class. The import has the name `a.b`, which is spelt `a/b` as the name of the class
is. -/
def unit : Code.ClassUnit := ⟨"a/b", none, ["a.b"], [], [loweredFoo, loweredBar], true⟩

/-- The call is taken for one of the method of the class itself, which takes an integer. -/
def body : List Stack.Instr :=
  [.loadShort .reference 0, .invoke .static ⟨"a/b", "foo", ["I"], "I"⟩, .pop, .ret]

/-- The blocks of both methods, with the call that names the class itself. -/
def blocks : List Stack.Block :=
  [⟨"static foo(I)I", 1, 1, [.loadShort .int 0, .retValue .int]⟩, ⟨"static bar([I)V", 1, 1, body⟩]

theorem lowered : Lowering.ofProgram true program = .ok unit := by decide

/-- Nothing is wrong with the program by its types: a method of an imported class may take arguments of
any types. -/
theorem wellTyped : program.WellTyped := by decide

def fooFrame : Frame := ⟨(∅ : Std.HashMap String UInt16).insert "x" 0, 1⟩

def barFrame : Frame := ⟨(∅ : Std.HashMap String UInt16).insert "xs" 0, 1⟩

theorem framed_foo : Frame.ofMethod loweredFoo = .ok fooFrame := by
  simp [loweredFoo, fooFrame, Frame.ofMethod, Frame.empty, Frame.add, Method.names, Code.Instr.names,
    Code.Operand.names, List.foldlM, bind, Except.bind, pure, Except.pure, UInt16.size]

theorem framed_bar : Frame.ofMethod loweredBar = .ok barFrame := by
  simp [loweredBar, barFrame, Frame.ofMethod, Frame.empty, Frame.add, Method.names, Code.Instr.names,
    Code.Operand.names, List.foldlM, bind, Except.bind, pure, Except.pure, UInt16.size]

theorem selected_foo (scope : ClassScope) (m : Method) :
    (codeOf ⟨scope, m, fooFrame⟩ loweredFoo.body).run ⟨0, []⟩ =
      .ok ([.loadShort .int 0, .retValue .int], ⟨0, []⟩) := by
  have hSlot : Site.slot ⟨scope, m, fooFrame⟩ "x" = .ok 0 := by
    simp [Site.slot_ok, Frame.slot?, fooFrame]
  simp only [loweredFoo, codeOf, Site.instr, Site.ret, Site.load, kindOf, hSlot]
  rfl

/-- The call passes the array and names the method of the class itself, whose parameter is an integer. -/
theorem selected_bar (m : Method) :
    (codeOf ⟨.ofUnit "java/lang/Object" unit, m, barFrame⟩ loweredBar.body).run ⟨0, []⟩ =
      .ok (body, ⟨0, []⟩) := by
  have hSlot : Site.slot ⟨.ofUnit "java/lang/Object" unit, m, barFrame⟩ "xs" = .ok 0 := by
    simp [Site.slot_ok, Frame.slot?, barFrame]
  have hClass : (ClassScope.ofUnit "java/lang/Object" unit).classOf (.classRef "b") = .ok "a/b" := by
    decide
  have hMethod : (ClassScope.ofUnit "java/lang/Object" unit).methodRef "a/b" "foo"
      [.variable "xs" .intArray] .int32 = ⟨"a/b", "foo", ["I"], "I"⟩ := by
    decide
  have hLoad : Site.loadAll ⟨.ofUnit "java/lang/Object" unit, m, barFrame⟩ [.variable "xs" .intArray] =
      .ok [.loadShort .reference 0] :=
    Site.loadAll_cons_ok.mpr ⟨_, _, Site.load_variable_ok.mpr ⟨.reference, 0, rfl, hSlot, rfl⟩,
      Site.loadAll_nil_ok.mpr rfl, rfl⟩
  have hInvoke : Site.invocation ⟨.ofUnit "java/lang/Object" unit, m, barFrame⟩ .static "a/b" "foo" []
      [.variable "xs" .intArray] .int32 = .ok (body.take 2, true) := by
    refine Site.invocation_ok.mpr ⟨_, hLoad, ?_, ?_⟩ <;> rw [hMethod] <;> rfl
  have hCall : (Site.instr ⟨.ofUnit "java/lang/Object" unit, m, barFrame⟩ (.call .invokeStatic
      (.classRef "b") (some "foo") [.variable "xs" .intArray] .int32)).run ⟨0, []⟩ =
        .ok (body.take 3, ⟨0, []⟩) :=
    Site.callStatement_run.mpr ⟨_, _, Site.call_invokeStatic_run.mpr
      ⟨"a/b", "foo", hClass, rfl, hInvoke, rfl⟩, rfl⟩
  exact codeOf_cons_run.mpr ⟨_, _, _, hCall, codeOf_cons_run.mpr ⟨_, _, _,
    Site.instr_ret_run.mpr ⟨Site.ret_none_ok.mpr rfl, rfl⟩, codeOf_nil_run.mpr ⟨rfl, rfl⟩, rfl⟩, rfl⟩

theorem emitted : methodBlocks (.ofUnit "java/lang/Object" unit) 0 unit.methods = .ok blocks := by
  have hFoo : Stack.usage "foo" [.loadShort .int 0, .retValue .int] = .ok ⟨1, 0⟩ := rfl
  have hBar : Stack.usage "bar" body = .ok ⟨1, 0⟩ := rfl
  refine methodBlocks_cons_ok.mpr ⟨_, _, _, methodBlock_ok.mpr ⟨fooFrame, _, _, _, framed_foo,
    selected_foo _ _, hFoo, rfl, rfl⟩, methodBlocks_cons_ok.mpr ⟨_, _, _, methodBlock_ok.mpr ⟨barFrame, _,
      _, _, framed_bar, selected_bar _, hBar, rfl, rfl⟩, rfl, rfl⟩, ?_⟩
  decide

/-- On the way to the invocation there is an array on the stack, and the method takes an integer. -/
theorem body_not_kindCorrect (slots : Nat → Option Kind) : ¬KindCorrect body ⟨[], slots⟩ := by
  rintro ⟨stackAt, hCorrect⟩
  obtain ⟨⟨hNeeds, -⟩, -⟩ := hCorrect 1 [.loadShort .reference 0] _ (.next .start rfl rfl) rfl
  have hPrefix : [Kind.int] <+: [Kind.reference] := hNeeds
  revert hPrefix
  decide

end Alias

/-- A class that goes by the name of an imported one: a call of a method of the imported class is taken
for a call of one of its own, whose parameters are not of the kinds of the arguments. -/
theorem alias_not_kind_correct :
    Alias.program.WellTyped ∧ Lowering.ofProgram true Alias.program = .ok Alias.unit ∧
      methodBlocks (.ofUnit "java/lang/Object" Alias.unit) 0 Alias.unit.methods = .ok Alias.blocks ∧
      ¬List.Forall₂ (MethodCorrect (.ofUnit "java/lang/Object" Alias.unit) Alias.unit.methods)
        Alias.program.decl.methods Alias.blocks := by
  refine ⟨Alias.wellTyped, Alias.lowered, Alias.emitted, fun hMethods => ?_⟩
  cases hMethods with
  | cons _ hRest =>
      cases hRest with
      | cons hBar _ =>
          obtain ⟨_, _, frame, _, _, _, hCorrect⟩ := hBar
          exact Alias.body_not_kindCorrect _ hCorrect

end MiniJava.Assembly
