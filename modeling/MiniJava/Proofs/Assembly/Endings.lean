import MiniJava.Proofs.Assembly.Members
import MiniJava.Proofs.Labels.Emitted
import MiniJava.Proofs.Lowering.Endings

/-! Whether control can run off the end of a method. It cannot where the code ends in an instruction that
never goes on to the next one; then there is also code behind every label. -/

namespace MiniJava.Stack

/-- Code that control does not leave at its end: it ends in a return or a jump, and behind every label
that is jumped to there is an instruction other than a label. -/
structure EndsProperly (code : List Instr) : Prop where
  exit : ∃ last, code.getLast? = some last ∧ last.isUnconditional = true
  behind : ∀ i ∈ code, ∀ target, i.target? = some target →
    ∀ before after, code = before ++ .label target :: after → ∃ j ∈ after, j.isLabel = false

theorem isLabel_of_isUnconditional {i : Instr} (h : i.isUnconditional = true) : i.isLabel = false := by
  cases i with
  | label => cases h
  | _ => rfl

/-- The instruction at the end stands behind every label, so it is enough to look at this one. -/
theorem endsProperly_iff {code : List Instr} :
    EndsProperly code ↔ lastIs? Instr.isUnconditional code = some true := by
  rw [lastIs?, Option.map_eq_some_iff]
  refine ⟨fun h => h.exit, fun h => ⟨h, ?_⟩⟩
  rintro - - target - before after rfl
  obtain ⟨last, hLast, hExit⟩ := h
  have hPlain := isLabel_of_isUnconditional hExit
  cases after with
  | nil =>
      rw [List.getLast?_concat] at hLast
      obtain rfl := Option.some.inj hLast
      cases hPlain
  | cons j rest =>
      rw [List.getLast?_append, List.getLast?_cons_cons,
        List.getLast?_eq_some_getLast (List.cons_ne_nil j rest), Option.some_or] at hLast
      obtain rfl := Option.some.inj hLast
      exact ⟨_, List.getLast_mem _, hPlain⟩

end MiniJava.Stack

namespace MiniJava.Assembly

open Code (Operand)
open Source (MethodDecl Program stmtsExit?)
open Stack (EndsProperly Instr storeSlot)

namespace Site

variable {site : Site} {p p' : Progress} {code : List Stack.Instr}

/-- Neither form of a store leaves the code, and so control goes on behind it. -/
theorem isUnconditional_storeSlot (kind : Stack.Kind) (slot : UInt16) :
    (storeSlot kind slot).isUnconditional = false := by
  unfold storeSlot
  split_ifs <;> rfl

/-- The last instruction of an invocation is the invocation itself, behind which control goes on. -/
theorem invocation_lastIs? {kind : Stack.InvokeKind} {className name : String}
    {receiverCode : List Stack.Instr} {arguments : List Operand} {returnType : Code.Ty} {pushes : Bool}
    (h : site.invocation kind className name receiverCode arguments returnType = .ok (code, pushes)) :
    lastIs? Instr.isUnconditional code = some false := by
  obtain ⟨_, _, rfl, -⟩ := invocation_ok.mp h
  rw [lastIs?_append]
  rfl

/-- Whichever call it is, control goes on behind it: the last instruction allocates, takes the length of
an array, or invokes. -/
theorem call_lastIs? {i : Code.Instr} {pushes : Bool}
    (h : (site.call i).run p = .ok ((code, pushes), p')) :
    lastIs? Instr.isUnconditional code = some false := by
  cases i with
  | call kind receiver method arguments returnType =>
      cases kind with
      | new =>
          cases hArray : returnType.isArray with
          | true =>
              obtain ⟨hNew, -⟩ := (call_newArray_run hArray).mp h
              obtain ⟨_, _, _, _, _, rfl⟩ := newArray_ok.mp hNew
              rw [lastIs?_append]
              rfl
          | false =>
              obtain ⟨_, _, rfl, -⟩ := (call_newObject_run hArray).mp h
              rfl
      | arrayLength =>
          obtain ⟨_, _, rfl, -⟩ := call_arrayLength_run.mp h
          rw [lastIs?_append]
          rfl
      | invokeStatic =>
          obtain ⟨_, _, _, _, hCode, -⟩ := call_invokeStatic_run.mp h
          exact invocation_lastIs? hCode
      | invokeVirtual =>
          obtain ⟨_, _, _, _, _, _, hCode, -⟩ := call_invokeVirtual_run.mp h
          exact invocation_lastIs? hCode
      | invokeSpecial =>
          obtain ⟨_, _, _, _, _, hCode⟩ := call_invokeSpecial_run.mp h
          exact invocation_lastIs? hCode
  | _ => exact (select_throw_ok h).elim

/-- Assignments end in a store, or in the store of a new object to its variable. Control goes on behind
both. -/
theorem assign_lastIs? {dest : Operand} {rhs : Code.Instr}
    (h : (site.assign dest rhs).run p = .ok (code, p')) :
    lastIs? Instr.isUnconditional code = some false := by
  cases dest with
  | «variable» name destTy =>
      cases hNew : allocated? rhs with
      | some receiver =>
          obtain ⟨slot, className, _, _, rfl, _⟩ := (assign_newObject_run hNew).mp h
          exact congrArg some (isUnconditional_storeSlot .reference slot)
      | none =>
          obtain ⟨slot, _, kind, _, _, _, rfl⟩ := (assign_variable_run hNew).mp h
          rw [lastIs?_append, lastIs?_singleton, isUnconditional_storeSlot]
          rfl
  | element array place destTy =>
      obtain ⟨_, _, _, _, _, _, _, _, rfl⟩ := assign_element_run.mp h
      rw [lastIs?_append]
      rfl
  | _ => exact (select_throw_ok h).elim

/-- The code of an instruction goes on at its end if and only if the instruction does. No code is empty,
so there is a last instruction. -/
theorem instr_lastIs? {i : Code.Instr} (h : (site.instr i).run p = .ok (code, p')) :
    lastIs? Instr.isUnconditional code = some i.isExit := by
  cases i with
  | assign dest ty rhs => exact assign_lastIs? h
  | call kind receiver method arguments returnType =>
      obtain ⟨callCode, pushes, hCall, rfl⟩ := callStatement_run.mp h
      cases pushes with
      | true =>
          rw [if_pos rfl, lastIs?_append]
          rfl
      | false => exact call_lastIs? hCall
  | putField object field ty value =>
      obtain ⟨_, _, _, _, _, _, rfl, -⟩ := instr_putField_run.mp h
      rw [lastIs?_append]
      rfl
  | ret value ty =>
      obtain ⟨hRet, -⟩ := instr_ret_run.mp h
      cases value with
      | none =>
          rw [ret_none_ok.mp hRet]
          rfl
      | some o =>
          obtain ⟨_, _, _, _, rfl⟩ := ret_some_ok.mp hRet
          rw [lastIs?_append]
          rfl
  | branch condition target =>
      obtain ⟨hBranch, -⟩ := instr_branch_run.mp h
      cases condition with
      | single o =>
          obtain ⟨_, _, rfl⟩ := branch_single_ok.mp hBranch
          rw [lastIs?_append]
          rfl
      | compare op left right =>
          obtain ⟨_, _, _, _, _, _, rfl⟩ := branch_compare_ok.mp hBranch
          rw [lastIs?_append]
          rfl
  | goto target =>
      obtain ⟨rfl, -⟩ := instr_goto_run.mp h
      rfl
  | label l =>
      obtain ⟨rfl, -⟩ := instr_label_run.mp h
      rfl
  | operand | binary | not | getField =>
      obtain ⟨_, _, rfl⟩ := (instr_mere_run rfl).mp h
      rw [lastIs?_append]
      rfl

end Site

/-- Code goes on at its end if and only if the instructions that it is selected for do. Only the last of
these counts. -/
theorem codeOf_lastIs? {site : Site} {p p' : Progress} {source : List Code.Instr}
    {code : List Stack.Instr} (h : (codeOf site source).run p = .ok (code, p')) :
    lastIs? Instr.isUnconditional code = lastIs? Code.Instr.isExit source := by
  induction source generalizing p code with
  | nil =>
      obtain ⟨rfl, -⟩ := codeOf_nil_run.mp h
      rfl
  | cons i rest ih =>
      obtain ⟨_, _, _, hFirst, hRest, rfl⟩ := codeOf_cons_run.mp h
      have hHead : i :: rest = [i] ++ rest := rfl
      rw [hHead, lastIs?_append, lastIs?_append, ih hRest, Site.instr_lastIs? hFirst]
      rfl

/-- Control cannot run off the end of a method that is void, nor off that of a method whose last
statement with code is a return statement, blocks looked into. Off that of any other method it can. -/
theorem endsProperly_methods {program : Program} {withConstructor : Bool} {unit : Code.ClassUnit}
    {superName : String} {blocks : List Stack.Block}
    (hUnit : Lowering.ofProgram withConstructor program = .ok unit)
    (hBlocks : methodBlocks (.ofUnit superName unit) 0 unit.methods = .ok blocks) :
    blocks.length = program.decl.methods.length ∧
      ∀ (k : Nat) (m : MethodDecl), program.decl.methods[k]? = some m →
        ∃ block : Stack.Block, blocks[k]? = some block ∧
          (EndsProperly block.body ↔
            m.returnType = .void ∨ stmtsExit? (m.namedScope program) m.body = some true) := by
  refine ⟨blocks_length hUnit hBlocks, fun k m hMethod => ?_⟩
  obtain ⟨_, _, hMethods, rfl⟩ := Lowering.ofProgram_ok.mp hUnit
  obtain ⟨_, _, _, hLowered, hLower⟩ := Lowering.methods_getElem? hMethods hMethod
  obtain ⟨block, _, _, hPlace, hBlock⟩ := methodBlocks_getElem? hBlocks hLowered
  obtain ⟨_, _, _, _, _, hBody, _, rfl, _⟩ := methodBlock_ok.mp hBlock
  refine ⟨_, hPlace, ?_⟩
  rw [Stack.endsProperly_iff, codeOf_lastIs? hBody, Lowering.method_exits? hLower]
  by_cases hVoid : m.returnType = .void <;> simp [hVoid]

/-- A method with a loop in it and a return statement at its end. -/
theorem spin_endsProperly :
    Lowering.ofProgram true Spin.program = .ok Spin.unit ∧
      methodBlocks (.ofUnit "java/lang/Object" Spin.unit) 0 Spin.unit.methods =
        .ok [⟨"static spin(Z)Z", 2, 1, Spin.body⟩] ∧ EndsProperly Spin.body := by
  have hEmitted := Spin.emitted "java/lang/Object"
  obtain ⟨-, hEach⟩ := endsProperly_methods Spin.lowered hEmitted
  refine ⟨Spin.lowered, hEmitted, ?_⟩
  obtain ⟨block, hBlock, hEnds⟩ := hEach 0 _ rfl
  obtain rfl := Option.some.inj hBlock
  exact hEnds.mpr (.inr (by decide))

namespace Pick

/-- `static int pick(boolean c) { if (c) return 1; else return 2; }`. -/
def source : MethodDecl where
  name := "pick"
  isPublic := false
  isStatic := true
  returnType := .int
  parameters := [.plain "c" .boolean]
  locals := []
  body := [.cond (.ident "c" .boolean) (.ret (some (.intLiteral 1)))
    (some (.ret (some (.intLiteral 2))))]

/-- A class whose one method picks by its parameter, with a return in each branch. -/
def program : Program := ⟨[], ⟨"Pick", none, [], [source]⟩⟩

/-- Lowering puts the branch for the false case first and jumps over the other branch to the label of the
end, which is the last instruction. -/
def method : Code.Method where
  name := "pick"
  isPublic := false
  isStatic := true
  isVarargs := false
  parameters := [⟨"c", .boolean⟩]
  returnType := .int32
  body := [
    .branch (.single (.variable "c" .boolean)) ⟨.ifBody, 0⟩,
    .ret (some (.int 2)) .int32, .goto ⟨.endIf, 0⟩,
    .label ⟨.ifBody, 0⟩, .ret (some (.int 1)) .int32, .label ⟨.endIf, 0⟩]

def unit : Code.ClassUnit := ⟨"Pick", none, [], [], [method], true⟩

def frame : Frame := ⟨(∅ : Std.HashMap String UInt16).insert "c" 0, 1⟩

/-- Nothing stands behind the label of the end. -/
def body : List Instr := [
  .loadShort .int 0, .ifZero .ne "ifbody_0",
  .iconst 2, .retValue .int, .goto "endif_0",
  .label "ifbody_0", .iconst 1, .retValue .int, .label "endif_0"]

/-- What lowering makes of the class. No return is added at the end, for the method is not void. -/
theorem lowered : Lowering.ofProgram true program = .ok unit := by decide

theorem framed : Frame.ofMethod method = .ok frame := by
  simp [method, frame, Frame.ofMethod, Frame.empty, Frame.add, Code.Method.names, Code.Instr.names,
    Code.Condition.names, Operand.names, Operand.int, List.foldlM, bind, Except.bind, pure, Except.pure,
    UInt16.size]

/-- The code of the method in any class and with any head, since it asks only for the slot of the
parameter. -/
theorem selected (scope : ClassScope) (m : Code.Method) :
    (codeOf ⟨scope, m, frame⟩ method.body).run .start = .ok (body, .start) := by
  have hSlot : Site.slot ⟨scope, m, frame⟩ "c" = .ok 0 := by
    simp [Site.slot_ok, Frame.slot?, frame]
  simp only [method, codeOf, Site.instr, Site.branch, Site.load, kindOf, Site.ret, hSlot]
  rfl

theorem usage : Stack.usage "pick" body = .ok ⟨1, 0⟩ := by
  obtain ⟨walk, hRun, hDepth, hMax⟩ : ∃ walk, body.foldlM (Stack.Walk.step "pick") .start = .ok walk ∧
      walk.depth = 0 ∧ walk.maxDepth = 1 := by
    simp [body, Stack.Walk.step, Stack.Walk.start, Stack.Walk.after, Stack.Walk.atLabel,
      Stack.Walk.record, Instr.pops, Instr.pushes, Instr.isUnconditional, Instr.target?, bind,
      Except.bind, pure, Except.pure, Std.HashMap.getD_insertIfNew]
  refine except_bind_ok.mpr ⟨walk, hRun, ?_⟩
  rw [hDepth, hMax]
  rfl

/-- The block that a class file would have of the method. Nothing in the way to it objects to the label
at the end. -/
theorem emitted : methodBlocks (.ofUnit "java/lang/Object" unit) 0 unit.methods =
    .ok [⟨"static pick(Z)I", 1, 1, body⟩] :=
  methodBlocks_cons_ok.mpr ⟨_, _, _,
    methodBlock_ok.mpr ⟨frame, body, _, _, framed, selected _ method, usage, rfl, rfl⟩, rfl, rfl⟩

end Pick

/-- Both branches of the conditional at the end of a method return, and the code of the method ends in
a label to which there is a jump. -/
theorem pick_not_endsProperly :
    Source.stmtsReturn Pick.source.body = true ∧
      Lowering.ofProgram true Pick.program = .ok Pick.unit ∧
      methodBlocks (.ofUnit "java/lang/Object" Pick.unit) 0 Pick.unit.methods =
        .ok [⟨"static pick(Z)I", 1, 1, Pick.body⟩] ∧ ¬EndsProperly Pick.body := by
  refine ⟨by decide, Pick.lowered, Pick.emitted, fun hEnds => ?_⟩
  obtain ⟨_, hLabel, hPlain⟩ := hEnds.behind (.goto "endif_0") (by decide) "endif_0" rfl
    (Pick.body.take 8) [] rfl
  cases hLabel

end MiniJava.Assembly
