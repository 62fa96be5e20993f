import MiniJava.Proofs.Lowering.StmtMeaning
import Mathlib.Tactic.SplitIfs

/-!
Lowering keeps the meaning of methods: run with the same host, heap and variables, a method of a
well-typed program and its code cannot be told apart.
-/

namespace MiniJava.Lowering

open Code (Instr)
open Semantics (Ends Matches Next Reaches SameBehaviour Setting World)
open Semantics.Code (State afterLabel?_spec step_goOn)
open Semantics.Source (Completion)
open Source (MethodDecl Program Signature SymbolTable)

variable {setting : Setting} {body : List Instr}

/-- Code that ends with a return is not run beyond its end. A run either returns there or is somewhere
before it. -/
theorem reaches_ne_nil (hReturn : body.getLast?.any Instr.isReturn = true) {n : Nat} {s t : State}
    {w v : World} (h : Reaches (Semantics.Code.step setting body) n s w t v) (hStart : s.rest ≠ [])
    (hSuffix : s.rest <:+ body) : t.rest ≠ [] := by
  induction h with
  | zero s w => exact hStart
  | @succ n s t u w v x hFirst _ ih =>
      obtain ⟨rest, env⟩ := s
      cases rest with
      | nil => exact (hStart rfl).elim
      | cons i rest =>
          obtain ⟨hGoesOn, hNext⟩ := step_goOn hFirst
          rcases hNext with hRest | ⟨l, -, hFound⟩
          · have hLater : rest <:+ body := (List.suffix_cons i rest).trans hSuffix
            refine ih ?_ (hRest ▸ hLater)
            -- The last instruction is a return, and a return does not go on.
            intro hEmpty
            obtain ⟨front, rfl⟩ := hSuffix
            rw [← hRest, hEmpty, List.getLast?_append] at hReturn
            simp [hGoesOn] at hReturn
          · obtain ⟨hNonempty, hLater⟩ := afterLabel?_spec hFound
            exact ih hNonempty hLater

/-- Where no two methods share a name, the first method of a name is the method of that name. -/
theorem find?_ofMethod {ms : List MethodDecl} (hDistinct : (ms.map (·.name)).Nodup)
    {m : MethodDecl} (hm : m ∈ ms) :
    (ms.map Signature.ofMethod).find? (fun s => decide (s.name = m.name)) =
      some (Signature.ofMethod m) := by
  induction ms with
  | nil => cases hm
  | cons first rest ih =>
      rw [List.map_cons, List.nodup_cons] at hDistinct
      rw [List.map_cons, List.find?_cons]
      rcases List.mem_cons.mp hm with rfl | hRest
      · simp [Signature.ofMethod]
      · have hOther : first.name ≠ m.name := by
          intro hSame
          exact hDistinct.1 (List.mem_map.mpr ⟨m, hRest, hSame.symm⟩)
        have hFirst : decide ((Signature.ofMethod first).name = m.name) = false :=
          decide_eq_false hOther
        rw [hFirst]
        exact ih hDistinct.2 hRest

theorem method?_eq {program : Program} (hDistinct : (program.decl.methods.map (·.name)).Nodup)
    {m : MethodDecl} (hm : m ∈ program.decl.methods) :
    (SymbolTable.ofProgram program).method? m.name = some (Signature.ofMethod m) :=
  find?_ofMethod hDistinct hm

theorem isVoid_ofSource (ty : Source.Ty) : (Code.Ty.ofSource ty).isVoid = true ↔ ty = .void := by
  obtain ⟨name, isArray⟩ := ty
  cases isArray with
  | true => simp [Code.Ty.ofSource, Code.Ty.isVoid, Source.Ty.void]
  | false =>
      simp only [Code.Ty.ofSource, Code.Ty.ofName, Source.Ty.void, Source.Ty.mk.injEq, and_true,
        Bool.false_eq_true, if_false]
      split_ifs with h₁ h₂ h₃ h₄ <;> simp_all [Code.Ty.isVoid]

/-- The code of a method: that of its statements, with a return after it where a void method has
none at its end. -/
theorem method_body {program : Program} (hDistinct : (program.decl.methods.map (·.name)).Nodup)
    {m : MethodDecl} (hm : m ∈ program.decl.methods) {fresh fresh' : Fresh} {lowered : Code.Method}
    (h : (method (.ofProgram program) m).run fresh = .ok lowered fresh') :
    ∃ code, (stmts (m.scope program) m.body).run fresh = .ok code fresh' ∧
      ((m.returnType = .void ∧ lowered.body = code ++ [.ret none .void]) ∨
        (m.returnType = .void ∧ code.getLast?.any Instr.isReturn = true ∧ lowered.body = code) ∨
        (m.returnType ≠ .void ∧ lowered.body = code)) := by
  obtain ⟨signature, code, hFound, hLower, rfl⟩ := method_run.mp h
  obtain rfl := Option.some.inj ((method?_eq hDistinct hm).symm.trans hFound)
  refine ⟨code, hLower, ?_⟩
  unfold closed
  dsimp only
  by_cases hVoid : m.returnType = .void
  · have hTy := (isVoid_ofSource m.returnType).mpr hVoid
    cases hEnd : code.getLast?.any Instr.isReturn with
    | true =>
        refine .inr (.inl ⟨hVoid, rfl, ?_⟩)
        simp [hTy, Code.Method.endsWithReturn, hEnd]
    | false =>
        refine .inl ⟨hVoid, ?_⟩
        simp [hTy, Code.Method.endsWithReturn, hEnd]
  · have hTy : (Code.Ty.ofSource m.returnType).isVoid = false := by
      rw [← Bool.not_eq_true, isVoid_ofSource]
      exact hVoid
    refine .inr (.inr ⟨hVoid, ?_⟩)
    simp [hTy]

theorem mem_of_lookup? {program : Program} {m : MethodDecl} {name : String} {d : Source.Declaration}
    (h : (m.scope program).method.lookup? name = some d) : d ∈ m.declarations := by
  rcases Option.or_eq_some_iff.mp h with hLocal | ⟨_, hParameter⟩
  · exact List.mem_append_right _ (List.mem_of_find?_eq_some hLocal)
  · exact List.mem_append_left _ (List.mem_of_find?_eq_some hParameter)

theorem name_of_lookup? {signature : Source.Signature} {name : String} {d : Source.Declaration}
    (h : signature.lookup? name = some d) : d.name = name := by
  rcases Option.or_eq_some_iff.mp h with hLocal | ⟨_, hParameter⟩
  · simpa using List.find?_some hLocal
  · simpa using List.find?_some hParameter

theorem lookup?_of_mem {program : Program} {m : MethodDecl}
    (hDistinct : (m.declarations.map (·.name)).Nodup) {d : Source.Declaration}
    (hd : d ∈ m.declarations) : (m.scope program).method.lookup? d.name = some d := by
  cases hLookup : (m.scope program).method.lookup? d.name with
  | some found =>
      have hFound := mem_of_lookup? hLookup
      rw [List.inj_on_of_nodup_map hDistinct hFound hd (name_of_lookup? hLookup)]
  | none =>
      obtain ⟨hLocal, hParameter⟩ := Option.or_eq_none_iff.mp hLookup
      rcases List.mem_append.mp hd with hMem | hMem
      · exact (List.find?_eq_none.mp hParameter d hMem (decide_eq_true rfl)).elim
      · exact (List.find?_eq_none.mp hLocal d hMem (decide_eq_true rfl)).elim

/-- The values with which the code of a method starts are those with which the method does. What
values the temporaries have, if any, does not matter. -/
def Starts (m : MethodDecl) (locals : Semantics.Source.Env) (env : Semantics.Code.Env) : Prop :=
  ∀ d ∈ m.declarations, env d.name = some (locals d.name)

/-- Values of all declarations are values of all that names can mean in the method. This is where every
run of it begins. -/
theorem Starts.agrees {program : Program} {m : MethodDecl} {locals : Semantics.Source.Env}
    {env : Semantics.Code.Env} (h : Starts m locals env) :
    Agrees (m.scope program) locals env := by
  intro name d hLookup
  obtain rfl := name_of_lookup? hLookup
  exact h d (mem_of_lookup? hLookup)

/-- The code that goes along with the statements of a method goes along with the method, if what
stands after it is what the method needs at its end. -/
theorem matches_run {program : Program} {m : MethodDecl} {locals : Semantics.Source.Env}
    {rest : List Instr} {rounds : Nat} {s : State} {w : World}
    (hBody : Executes setting (m.scope program) body rest rounds s w
      ((Semantics.Source.execAll setting (m.scope program) rounds m.body locals).run w))
    (hEnd : ∀ {n env v}, Reaches (Semantics.Code.step setting body) n s w ⟨rest, env⟩ v →
      (m.returnType = .void ∧ Ends (Semantics.Code.step setting body) ⟨rest, env⟩ v (.ok none v)) ∨
      (m.returnType ≠ .void ∧ rest = [])) :
    Matches (Semantics.Code.step setting body) s w rounds
      ((Semantics.Source.run setting (m.scope program) m locals rounds).run w) := by
  rw [Semantics.Source.run]
  cases hRun : (Semantics.Source.execAll setting (m.scope program) rounds m.body locals).run w with
  | error stop v =>
      rw [hRun] at hBody
      rw [Semantics.run_bind_of_error hRun]
      exact hBody
  | ok completion v =>
      rw [hRun] at hBody
      rw [Semantics.run_bind_of_ok hRun]
      cases completion with
      | returned value => exact hBody
      | unfinished => exact hBody
      | normal locals' =>
          obtain ⟨n, env, hReach, -⟩ := hBody
          rcases hEnd hReach with ⟨hVoid, hLast⟩ | ⟨hVoid, rfl⟩
          · rw [Semantics.Source.outcome, if_pos hVoid]
            exact hReach.ends hLast
          · rw [Semantics.Source.outcome, if_neg hVoid]
            exact hReach.ends (.stopped rfl)

/-- Whatever values its variables start with, and whatever the heap holds and the host answers, a
method of a well-typed program and the code it is lowered to behave alike: they make the same calls
and writes in the same order, and both go on for ever or end in the same way, with the same result
and the same heap. -/
theorem lowered_sameBehaviour {program : Program} (hTyped : program.WellTyped) {m : MethodDecl}
    (hm : m ∈ program.decl.methods)
    (hDirect : Source.haveDirectTargets (m.scope program) m.body = true) {fresh fresh' : Fresh}
    {lowered : Code.Method} (h : (method (.ofProgram program) m).run fresh = .ok lowered fresh')
    (setting : Setting) {locals : Semantics.Source.Env} {env : Semantics.Code.Env}
    (hStarts : Starts m locals env) (w : World) :
    SameBehaviour w (Semantics.Source.run setting (m.scope program) m locals)
      (Semantics.Code.run setting lowered.body env) := by
  have hNodup := (ownLabels_method h).nodup
  have hKnown : (m.scope program).Known := method?_eq hTyped.distinct hm
  have hStmts := wellTypedStmts_iff.mp (hTyped.methods m hm).body
  rw [haveDirectTargets_iff] at hDirect
  have hDoes : ∀ s ∈ m.body, Does setting (m.scope program) lowered.body s :=
    fun s hs => does hKnown hNodup (hStmts s hs) (hDirect s hs)
  obtain ⟨code, hLower, hEnding⟩ := method_body hTyped.distinct hm h
  refine SameBehaviour.of_matches (Semantics.Code.grows_step setting lowered.body) fun rounds => ?_
  have hRun : ∀ rest, lowered.body = code ++ rest →
      Executes setting (m.scope program) lowered.body rest rounds ⟨lowered.body, env⟩ w
        ((Semantics.Source.execAll setting (m.scope program) rounds m.body locals).run w) := by
    intro rest hBody
    have hSuffix : (code ++ rest) <:+ lowered.body := ⟨[], hBody.symm⟩
    have hExecutes := does_stmts rounds w hDoes hLower hSuffix hStarts.agrees
    rwa [← hBody] at hExecutes
  rcases hEnding with ⟨hVoid, hBody⟩ | ⟨hVoid, hReturn, hBody⟩ | ⟨hVoid, hBody⟩
  · exact matches_run (hRun _ hBody) fun _ => .inl ⟨hVoid, .returned rfl⟩
  · refine matches_run (hRun [] (by rw [hBody, List.append_nil])) fun hReach => ?_
    have hNonempty : lowered.body ≠ [] := by
      intro hEmpty
      rw [← hBody, hEmpty] at hReturn
      cases hReturn
    exact (reaches_ne_nil (hBody ▸ hReturn) hReach hNonempty (List.suffix_refl _) rfl).elim
  · exact matches_run (hRun [] (by rw [hBody, List.append_nil])) fun _ => .inr ⟨hVoid, rfl⟩

namespace Fill

/-- `static int fill(int[] a, int n) { int i; while (i < n) { a[i] = i; i = i + 1; } return i; }`. -/
def source : MethodDecl where
  name := "fill"
  isPublic := false
  isStatic := true
  returnType := .int
  parameters := [.plain "a" .intArray, .plain "n" .int]
  locals := [.plain "i" .int]
  body := [
    .loop (.ofBinary .less (.ident "i" .int) (.ident "n" .int)) (.block [
      .assign (.ofIndex (.ident "a" .intArray) (.ident "i" .int)) (.ident "i" .int),
      .assign (.ident "i" .int) (.ofBinary .add (.ident "i" .int) (.intLiteral 1))]),
    .ret (some (.ident "i" .int))]

def program : Program := ⟨[], ⟨"Fill", none, [], [source]⟩⟩

/-- The loop stores to the item and counts, with its test before it and again at its end. -/
def code : List Instr :=
  let i := Code.Operand.variable "i" .int32
  let test := Code.Condition.compare .lt i (.variable "n" .int32)
  [.branch test ⟨.whileBody, 0⟩,
    .goto ⟨.endWhile, 0⟩,
    .label ⟨.whileBody, 0⟩,
    .assign (.element "a" i .int32) .int32 (.operand i),
    .assign i .int32 (.binary .add i (.int 1) .int32),
    .branch test ⟨.whileBody, 0⟩,
    .label ⟨.endWhile, 0⟩,
    .ret (some i) .int32]

def lowered : Code.Method where
  name := "fill"
  isPublic := false
  isStatic := true
  isVarargs := false
  parameters := [⟨"a", .intArray⟩, ⟨"n", .int32⟩]
  returnType := .int32
  body := code

/-- An array of two items to fill from its beginning. -/
def locals : Semantics.Source.Env := fun name =>
  if name = "a" then .ref (some 0) else if name = "n" then .int 2 else .int 0

/-- A heap with an array of two zeros, where nothing was done yet. -/
def start : World := ⟨[.array .int [.int 0, .int 0]], []⟩

/-- The heap and the record afterwards. Each item that was written is an event, the first one included
although its value is the same. -/
def filled : World where
  heap := [.array .int [.int 0, .int 1]]
  trace := [.itemWrite 0 0 (.int 0), .itemWrite 0 1 (.int 1)]

end Fill

theorem fill_sameBehaviour :
    Fill.program.WellTyped ∧
      (method (.ofProgram Fill.program) Fill.source).run .start = .ok Fill.lowered ⟨0, 1⟩ ∧
      (Semantics.Source.run default (Fill.source.scope Fill.program) Fill.source Fill.locals 3).run
        Fill.start = .ok (.returned (some (.int 2))) Fill.filled ∧
      SameBehaviour Fill.start
        (Semantics.Source.run default (Fill.source.scope Fill.program) Fill.source Fill.locals)
        (Semantics.Code.run default Fill.code fun name => some (Fill.locals name)) := by
  have hTyped : Fill.program.WellTyped := by decide
  have hLowered : (method (.ofProgram Fill.program) Fill.source).run .start =
      .ok Fill.lowered ⟨0, 1⟩ := by rfl
  refine ⟨hTyped, hLowered, by rfl, ?_⟩
  exact lowered_sameBehaviour hTyped (List.mem_singleton_self _) (by decide) hLowered default
    (fun d _ => rfl) Fill.start

end MiniJava.Lowering
