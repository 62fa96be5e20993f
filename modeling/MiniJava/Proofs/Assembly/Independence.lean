import MiniJava.Proofs.Assembly.Alike
import MiniJava.Proofs.Lowering.Alike
import MiniJava.Proofs.Lowering.Typing

/-! Methods are compiled independently of each other. The counters for temporaries, labels and
comparisons run through a whole class, so that the bodies of earlier methods decide which numbers a
method begins with; they decide nothing else about its code. -/

namespace MiniJava.Assembly

open Code (Label Method)
open Lowering (Fresh SameLabel)
open Source (MethodDecl Program SymbolTable)
open Stack (Block)

/-- Labels that stand for each other in stack code: those of the three-address code, and the ones of
comparisons in the order in which these are met. -/
inductive SameText (fresh fresh' : Fresh) (comparisons comparisons' : Nat) : String → String → Prop
  | label {l l' : Label} (h : SameLabel fresh fresh' l l') :
      SameText fresh fresh' comparisons comparisons' l.text l'.text
  | holds (n : Nat) : SameText fresh fresh' comparisons comparisons'
      (comparisonLabels (comparisons + n)).1 (comparisonLabels (comparisons' + n)).1
  | done (n : Nat) : SameText fresh fresh' comparisons comparisons'
      (comparisonLabels (comparisons + n)).2 (comparisonLabels (comparisons' + n)).2

/-- The labels of three-address code end in a number behind an underscore, and those of comparisons end
in a word. No label is both. -/
theorem label_text_ne (l : Label) (id : Nat) :
    l.text ≠ (comparisonLabels id).1 ∧ l.text ≠ (comparisonLabels id).2 := by
  have hApart := label_text_not_mem_comparisonNames l id (id + 1)
  simp only [mem_comparisonNames, not_exists, not_and, not_or] at hApart
  exact hApart id (Nat.le_refl _) (Nat.lt_succ_self _)

/-- Exchanging the two sides leaves labels that stand for each other as they are. -/
theorem sameText_symm {fresh fresh' : Fresh} {comparisons comparisons' : Nat} {text text' : String}
    (h : SameText fresh fresh' comparisons comparisons' text text') :
    SameText fresh' fresh comparisons' comparisons text' text := by
  cases h with
  | label h =>
      obtain ⟨hKind, n, hId, hId'⟩ := h
      exact .label ⟨hKind.symm, n, hId', hId⟩
  | holds n => exact .holds n
  | done n => exact .done n

/-- No label stands for two: texts determine labels, and labels that stand for each other were taken at
the same distance from the counters that their methods began with. -/
theorem sameText_rightUnique (fresh fresh' : Fresh) (comparisons comparisons' : Nat) :
    Relator.RightUnique (SameText fresh fresh' comparisons comparisons') := by
  intro text first second h h'
  generalize hText : text = text' at h'
  cases h with
  | label hLabel =>
      cases h' with
      | label hLabel' =>
          obtain rfl := Label.text_injective hText
          rw [(Lowering.sameLabel_biUnique fresh fresh').2 hLabel hLabel']
      | holds n => exact ((label_text_ne _ _).1 hText).elim
      | done n => exact ((label_text_ne _ _).2 hText).elim
  | holds n =>
      cases h' with
      | label _ => exact ((label_text_ne _ _).1 hText.symm).elim
      | holds n' =>
          have hId := comparisonLabels_true_injective hText
          obtain rfl : n = n' := by omega
          rfl
      | done n' => exact (comparisonLabels_ne _ _ hText).elim
  | done n =>
      cases h' with
      | label _ => exact ((label_text_ne _ _).2 hText.symm).elim
      | holds n' => exact (comparisonLabels_ne _ _ hText.symm).elim
      | done n' =>
          have hId := comparisonLabels_end_injective hText
          obtain rfl : n = n' := by omega
          rfl

/-- Labels stand for each other one to one, so that a jump goes to the corresponding place on both
sides. -/
theorem sameText_biUnique (fresh fresh' : Fresh) (comparisons comparisons' : Nat) :
    Relator.BiUnique (SameText fresh fresh' comparisons comparisons') :=
  ⟨fun _ _ _ h h' => sameText_rightUnique _ _ _ _ (sameText_symm h) (sameText_symm h'),
    sameText_rightUnique fresh fresh' comparisons comparisons'⟩

/-- Programs that differ in bodies only become classes that look the same from the code of any of their
methods. -/
theorem ofUnit_alike {program program' : Program} {withConstructor : Bool}
    {unit unit' : Code.ClassUnit}
    (hSymbols : SymbolTable.ofProgram program = SymbolTable.ofProgram program')
    (hUnit : Lowering.ofProgram withConstructor program = .ok unit)
    (hUnit' : Lowering.ofProgram withConstructor program' = .ok unit') (superName : String) :
    ClassScope.Alike (.ofUnit superName unit) (.ofUnit superName unit') := by
  have hHead : unit.name = unit'.name ∧ unit.imports = unit'.imports ∧
      unit.superClass = unit'.superClass := by
    obtain ⟨_, _, _, rfl⟩ := Lowering.ofProgram_ok.mp hUnit
    obtain ⟨_, _, _, rfl⟩ := Lowering.ofProgram_ok.mp hUnit'
    obtain ⟨hName, hSuper, hImports, -⟩ := SymbolTable.mk.inj hSymbols
    exact ⟨hName, hImports, hSuper⟩
  obtain ⟨hName, hImports, hSuper⟩ := hHead
  have hQualify : qualify unit = qualify unit' := by
    funext name
    unfold qualify
    rw [hName, hImports]
  refine ⟨hName, hImports, ?_, fun name => ?_⟩
  · change (unit.superClass.map (qualify unit)).getD superName = _
    rw [hSuper, hQualify]
    rfl
  · change (unit.method? name).map Method.parameterTypes = (unit'.method? name).map _
    rw [Lowering.method?_parameterTypes hUnit, Lowering.method?_parameterTypes hUnit', hSymbols]

/-- One method of a class compiled twice: with the numbers that other bodies before it have left, and
in a class that looks the same. -/
theorem methodBlock_alike {scope scope' : ClassScope} (hScope : scope.Alike scope')
    {symbols : SymbolTable} {m : MethodDecl} (hFound : symbols.method? m.name = some (.ofMethod m))
    {lowered lowered' : Method} {fresh fresh' last last' : Fresh}
    (hLower : (Lowering.method symbols m).run fresh = .ok lowered last)
    (hLower' : (Lowering.method symbols m).run fresh' = .ok lowered' last')
    {comparisons comparisons' after after' : Nat} {block block' : Block}
    (hBlock : methodBlock scope comparisons lowered = .ok (block, after))
    (hBlock' : methodBlock scope' comparisons' lowered' = .ok (block', after')) :
    block'.header = block.header ∧ block'.maxStack = block.maxStack ∧
      block'.maxLocals = block.maxLocals ∧
      Stack.CodeAlike (SameText fresh fresh' comparisons comparisons') block.body block'.body := by
  obtain ⟨hHead, hCode, hNames⟩ := Lowering.method_alike hFound hLower hLower'
  obtain ⟨frame, body, _, usage, hFrame, hBody, hUsage, rfl, -⟩ := methodBlock_ok.mp hBlock
  obtain ⟨frame', body', _, usage', hFrame', hBody', hUsage', rfl, -⟩ := methodBlock_ok.mp hBlock'
  have hUnique := Lowering.sameName_biUnique ⟨symbols, .ofMethod m⟩ fresh fresh'
  have hStatic : lowered.isStatic = lowered'.isStatic := by rw [hHead]
  have hName : lowered.name = lowered'.name := by rw [hHead]
  have hFrames := Frame.Alike.ofMethod hUnique hStatic hNames hFrame hFrame'
  have hSite : Site.Alike (Lowering.SameName ⟨symbols, .ofMethod m⟩ fresh fresh')
      (SameLabel fresh fresh') (SameText fresh fresh' comparisons comparisons')
      ⟨scope, lowered, frame⟩ ⟨scope', lowered', frame'⟩ :=
    ⟨hScope, hStatic, hFrames.slots, fun _ _ hLabel => .label hLabel⟩
  have hStart : Progress.Alike (Lowering.SameName ⟨symbols, .ofMethod m⟩ fresh fresh')
      (SameText fresh fresh' comparisons comparisons') ⟨comparisons, []⟩ ⟨comparisons', []⟩ :=
    ⟨by simp, fun n => ⟨.holds n, .done n⟩⟩
  have hAlike := hSite.codeOf_alike hUnique hStart hCode hBody hBody'
  rw [← hName] at hUsage'
  have hDepths := Stack.usage_alike (sameText_biUnique fresh fresh' comparisons comparisons') hAlike
    hUsage hUsage'
  exact ⟨(hScope.methodHeader_eq hHead).symm, by rw [hDepths], hFrames.size.symm, hAlike⟩

/-- The code of a method depends on the other methods of its class through their heads only. In two
programs that differ in the bodies of other methods it has the same header and the same limits, and
instructions that one renaming of labels takes into each other. -/
theorem methodBlocks_independent {program program' : Program} {withConstructor : Bool}
    {unit unit' : Code.ClassUnit} {superName : String} {blocks blocks' : List Block} {k : Nat}
    {m : MethodDecl} (hSymbols : SymbolTable.ofProgram program = SymbolTable.ofProgram program')
    (hDistinct : (program.decl.methods.map (·.name)).Nodup)
    (hMethod : program.decl.methods[k]? = some m) (hMethod' : program'.decl.methods[k]? = some m)
    (hUnit : Lowering.ofProgram withConstructor program = .ok unit)
    (hUnit' : Lowering.ofProgram withConstructor program' = .ok unit')
    (hBlocks : methodBlocks (.ofUnit superName unit) 0 unit.methods = .ok blocks)
    (hBlocks' : methodBlocks (.ofUnit superName unit') 0 unit'.methods = .ok blocks') :
    ∃ block block', blocks[k]? = some block ∧ blocks'[k]? = some block' ∧
      block'.header = block.header ∧ block'.maxStack = block.maxStack ∧
      block'.maxLocals = block.maxLocals ∧
      ∃ rename : String → String, Function.Injective rename ∧
        block'.body = block.body.map (Stack.Instr.relabel rename) := by
  have hScope := ofUnit_alike hSymbols hUnit hUnit' superName
  have hFound := Lowering.method?_eq hDistinct (List.mem_of_getElem? hMethod)
  obtain ⟨_, _, hMethods, rfl⟩ := Lowering.ofProgram_ok.mp hUnit
  obtain ⟨_, _, hMethods', rfl⟩ := Lowering.ofProgram_ok.mp hUnit'
  rw [← hSymbols] at hMethods'
  obtain ⟨_, _, _, hLowered, hLower⟩ := Lowering.methods_getElem? hMethods hMethod
  obtain ⟨_, _, _, hLowered', hLower'⟩ := Lowering.methods_getElem? hMethods' hMethod'
  obtain ⟨block, _, _, hPlace, hBlock⟩ := methodBlocks_getElem? hBlocks hLowered
  obtain ⟨block', _, _, hPlace', hBlock'⟩ := methodBlocks_getElem? hBlocks' hLowered'
  obtain ⟨hHeader, hStack, hLocals, hAlike⟩ :=
    methodBlock_alike hScope hFound hLower hLower' hBlock hBlock'
  exact ⟨block, block', hPlace, hPlace', hHeader, hStack, hLocals,
    Stack.CodeAlike.exists_relabel (sameText_biUnique _ _ _ _) hAlike⟩

namespace Idle

/-- The loop `while (true) { }`, which takes one number for its labels. -/
def loop : Source.Stmt := .loop (.boolLiteral true) (.block [])

def source (name : String) (body : List Source.Stmt) : MethodDecl where
  name := name
  isPublic := false
  isStatic := true
  returnType := .void
  parameters := []
  locals := []
  body := body

/-- A class with the methods `static void first()`, of any body, and
`static void later() { while (true) { } }`. -/
def program (first : List Source.Stmt) : Program :=
  ⟨[], ⟨"Idle", none, [], [source "first" first, source "later" [loop]]⟩⟩

/-- A static method without parameters or result, with the given code. -/
def method (name : String) (body : List Code.Instr) : Method :=
  ⟨name, false, true, false, [], .void, body⟩

/-- The class with the code of both methods. -/
def unit (first later : List Code.Instr) : Code.ClassUnit :=
  ⟨"Idle", none, [], [], [method "first" first, method "later" later], true⟩

/-- The code of the loop with the number `n` of its labels, and of the return after it. -/
def code (n : Nat) : List Code.Instr := [
  .branch (.single (.bool true)) ⟨.whileBody, n⟩, .goto ⟨.endWhile, n⟩, .label ⟨.whileBody, n⟩,
  .branch (.single (.bool true)) ⟨.whileBody, n⟩, .label ⟨.endWhile, n⟩, .ret none .void]

def body (n : Nat) : List Stack.Instr := [
  .iconst 1, .ifZero .ne (Label.text ⟨.whileBody, n⟩), .goto (Label.text ⟨.endWhile, n⟩),
  .label (Label.text ⟨.whileBody, n⟩), .iconst 1, .ifZero .ne (Label.text ⟨.whileBody, n⟩),
  .label (Label.text ⟨.endWhile, n⟩), .ret]

theorem lowered : Lowering.ofProgram true (program []) = .ok (unit [.ret none .void] (code 0)) := by
  decide

/-- With a loop in the method before it, the same loop has labels with the number 1. -/
theorem lowered_loop :
    Lowering.ofProgram true (program [loop]) = .ok (unit (code 0) (code 1)) := by
  decide

theorem usage (name : String) (n : Nat) : Stack.usage name (body n) = .ok ⟨1, 0⟩ := by
  obtain ⟨walk, hRun, hDepth, hMax⟩ : ∃ walk, (body n).foldlM (Stack.Walk.step name) .start = .ok walk ∧
      walk.depth = 0 ∧ walk.maxDepth = 1 := by
    simp [body, Stack.Walk.step, Stack.Walk.start, Stack.Walk.after, Stack.Walk.atLabel,
      Stack.Walk.record, Stack.Instr.pops, Stack.Instr.pushes, Stack.Instr.isUnconditional,
      Stack.Instr.target?, bind, Except.bind, pure, Except.pure, Std.HashMap.getD_insertIfNew]
  refine except_bind_ok.mpr ⟨walk, hRun, ?_⟩
  rw [hDepth, hMax]
  rfl

/-- The block of a method with the loop. It needs no slot and one cell, whatever the number of the
labels. -/
theorem emitted (scope : ClassScope) (name : String) (n : Nat) :
    methodBlock scope 0 (method name (code n)) =
      .ok (⟨methodHeader scope (method name (code n)), 1, 0, body n⟩, 0) :=
  methodBlock_ok.mpr ⟨.empty true, body n, .start, _, rfl, rfl, usage name n, rfl, rfl⟩

theorem emitted_return (scope : ClassScope) :
    methodBlock scope 0 (method "first" [.ret none .void]) =
      .ok (⟨methodHeader scope (method "first" [.ret none .void]), 0, 0, [.ret]⟩, 0) := rfl

/-- The blocks of the class: the method before the loop has any block, and the one with the loop differs
in the number of its labels alone. -/
theorem emitted_methods {superName : String} {first : List Code.Instr} {block : Block} (n : Nat)
    (hFirst : methodBlock (.ofUnit superName (unit first (code n))) 0 (method "first" first) =
      .ok (block, 0)) :
    methodBlocks (.ofUnit superName (unit first (code n))) 0 (unit first (code n)).methods =
      .ok [block, ⟨"static later()V", 1, 0, body n⟩] :=
  methodBlocks_cons_ok.mpr ⟨_, _, _, hFirst,
    methodBlocks_cons_ok.mpr ⟨_, _, _, emitted _ "later" n, rfl, rfl⟩, rfl⟩

end Idle

/-- The theorem on a class whose first method has a loop or has none: the loop of the other method
has other labels then. -/
theorem idle_independent :
    Lowering.ofProgram true (Idle.program []) = .ok (Idle.unit [.ret none .void] (Idle.code 0)) ∧
      Lowering.ofProgram true (Idle.program [Idle.loop]) =
        .ok (Idle.unit (Idle.code 0) (Idle.code 1)) ∧
      ∃ rename : String → String, Function.Injective rename ∧
        Idle.body 1 = (Idle.body 0).map (Stack.Instr.relabel rename) := by
  refine ⟨Idle.lowered, Idle.lowered_loop, ?_⟩
  have hSymbols : SymbolTable.ofProgram (Idle.program []) =
      SymbolTable.ofProgram (Idle.program [Idle.loop]) := rfl
  have hBlocks := Idle.emitted_methods 0 (Idle.emitted_return (.ofUnit "java/lang/Object" _))
  have hBlocks' := Idle.emitted_methods 1 (Idle.emitted (.ofUnit "java/lang/Object" _) "first" 0)
  obtain ⟨_, _, hPlace, hPlace', -, -, -, hRename⟩ := methodBlocks_independent (k := 1)
    (m := Idle.source "later" [Idle.loop]) hSymbols (by decide) rfl rfl Idle.lowered
    Idle.lowered_loop hBlocks hBlocks'
  obtain rfl := Option.some.inj hPlace
  obtain rfl := Option.some.inj hPlace'
  exact hRename

end MiniJava.Assembly
