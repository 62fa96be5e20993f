import MiniJava.Proofs.Lowering.ExprMeaning
import MiniJava.Proofs.Lowering.Values

/-!
Lowered statements do what the statements do. The code of a statement comes to its end where the
statement ends normally, with the variables as the statement leaves them; it returns and stops
where the statement does; and where a loop has taken all the rounds it was given, the code has taken
at least as many steps.
-/

namespace MiniJava.Lowering

open Code (Condition Instr Label Operand)
open Semantics (Act Comes Ends Next Reaches Setting Stop Value World)
open Semantics.Code (State)
open Semantics.Source (Completion)
open Source (Expr Stmt)

variable {scope : Scope} {setting : Setting} {body : List Instr}

/-- The code from `s` goes along with a statement with the result `r`; `rest` is the code after it. A
return ends the run, and a loop that is not done keeps it running. -/
def Executes (setting : Setting) (scope : Scope) (body rest : List Instr) (rounds : Nat) (s : State)
    (w : World) : EStateM.Result Stop World Completion → Prop
  | .ok (.normal locals) w' => ∃ n env, Reaches (Semantics.Code.step setting body) n s w ⟨rest, env⟩ w' ∧
      Agrees scope locals env
  | .ok (.returned v) w' => Ends (Semantics.Code.step setting body) s w (.ok v w')
  | .ok .unfinished w' => ∃ n t, rounds ≤ n ∧ Reaches (Semantics.Code.step setting body) n s w t w'
  | .error stop w' => Ends (Semantics.Code.step setting body) s w (.error stop w')

section

variable {rest rest₁ : List Instr} {rounds n : Nat} {s t : State} {w v : World}
  {r : EStateM.Result Stop World Completion}

/-- Steps that are taken before count as well, also towards the number of rounds for which a run is
followed. -/
theorem Executes.later {more : Nat} (hReach : Reaches (Semantics.Code.step setting body) n s w t v)
    (hMore : more ≤ n + rounds) (h : Executes setting scope body rest rounds t v r) :
    Executes setting scope body rest more s w r := by
  cases r with
  | error stop w' => exact hReach.ends h
  | ok completion w' =>
      cases completion with
      | normal locals =>
          obtain ⟨m, env, hLater, hAgrees⟩ := h
          exact ⟨n + m, env, hReach.trans hLater, hAgrees⟩
      | returned value => exact hReach.ends h
      | unfinished =>
          obtain ⟨m, u, hLe, hLater⟩ := h
          exact ⟨n + m, u, by omega, hReach.trans hLater⟩

theorem Executes.after (hReach : Reaches (Semantics.Code.step setting body) n s w t v)
    (h : Executes setting scope body rest rounds t v r) :
    Executes setting scope body rest rounds s w r := h.later hReach (by omega)

theorem Executes.fewer {less : Nat} (h : Executes setting scope body rest rounds s w r)
    (hLess : less ≤ rounds) : Executes setting scope body rest less s w r :=
  h.later (.zero s w) (by omega)

/-- The code of an expression, and then that of what is done with its value. If the expression stops the
run, nothing is done with it. -/
theorem Executes.ofComes {α : Type} {x : Act α} {f : α → Act Completion} {P : α → State → World → Prop}
    (h : Comes (Semantics.Code.step setting body) s w (x.run w)
      fun t v => ∃ a, x.run w = .ok a v ∧ P a t v)
    (hf : ∀ a t v, P a t v → Executes setting scope body rest rounds t v ((f a).run v)) :
    Executes setting scope body rest rounds s w ((x >>= f).run w) := by
  rcases h with ⟨n, t, v, hReach, a, hRun, hP⟩ | ⟨stop, v, hRun, hEnd⟩
  · rw [Semantics.run_bind_of_ok hRun f]
    exact .after hReach (hf a t v hP)
  · rw [Semantics.run_bind_of_error hRun f]
    exact hEnd

/-- The code of a statement that may end normally, and then the code after it. If it returns or does not
end, the code after it is not come to. -/
theorem Executes.andThen {x : Act Completion} {f : Semantics.Source.Env → Act Completion}
    (h : Executes setting scope body rest₁ rounds s w (x.run w))
    (hf : ∀ locals env v, Agrees scope locals env →
      Executes setting scope body rest rounds ⟨rest₁, env⟩ v ((f locals).run v)) :
    Executes setting scope body rest rounds s w ((x >>= fun completion =>
      match completion with
      | .normal locals => f locals
      | completion => pure completion).run w) := by
  cases hRun : x.run w with
  | error stop v =>
      rw [hRun] at h
      rwa [Semantics.run_bind_of_error hRun]
  | ok completion v =>
      rw [hRun] at h
      rw [Semantics.run_bind_of_ok hRun]
      cases completion with
      | normal locals =>
          obtain ⟨n, env, hReach, hAgrees⟩ := h
          exact .after hReach (hf locals env v hAgrees)
      | returned value => exact h
      | unfinished => exact h

/-- Code that only goes on from one place to another may be added at the end, such as the jump over the
other branch of a conditional. -/
theorem Executes.onward (h : Executes setting scope body rest₁ rounds s w r)
    (hOnward : ∀ env v, ∃ n, Reaches (Semantics.Code.step setting body) n ⟨rest₁, env⟩ v ⟨rest, env⟩ v) :
    Executes setting scope body rest rounds s w r := by
  cases r with
  | error stop w' => exact h
  | ok completion w' =>
      cases completion with
      | normal locals =>
          obtain ⟨n, env, hReach, hAgrees⟩ := h
          obtain ⟨m, hLater⟩ := hOnward env w'
          exact ⟨n + m, env, hReach.trans hLater, hAgrees⟩
      | returned value => exact h
      | unfinished => exact h

theorem Executes.normal {locals : Semantics.Source.Env} {env : Semantics.Code.Env}
    (hAgrees : Agrees scope locals env) :
    Executes setting scope body rest rounds ⟨rest, env⟩ w
      ((pure (.normal locals) : Act Completion).run w) :=
  ⟨0, env, .zero _ w, hAgrees⟩

end

/-- The code of a statement, in whatever body it stands, goes along with it. As for expressions, this is
said of all numbers and all variables at once. -/
def Does (setting : Setting) (scope : Scope) (body : List Instr) (s : Stmt) : Prop :=
  ∀ (fresh : Fresh) (code : List Instr) (fresh' : Fresh),
    (stmt scope s).run fresh = .ok code fresh' →
    ∀ (rounds : Nat) (locals : Semantics.Source.Env) (env : Semantics.Code.Env) (w : World)
      (rest : List Instr), (code ++ rest) <:+ body → Agrees scope locals env →
      Executes setting scope body rest rounds ⟨code ++ rest, env⟩ w
        ((Semantics.Source.exec setting scope rounds s locals).run w)

section

variable {fresh fresh₁ fresh' : Fresh} {env : Semantics.Code.Env} {w : World}
  {rest code : List Instr} {locals : Semantics.Source.Env} {rounds : Nat}

/-- Statements are executed one after another, up to the first that does not end normally. Their code
stands in the same order. -/
theorem does_stmts (rounds : Nat) (w : World) {ss : List Stmt}
    (hss : ∀ s ∈ ss, Does setting scope body s)
    (h : (stmts scope ss).run fresh = .ok code fresh') (hSuffix : (code ++ rest) <:+ body)
    (hAgrees : Agrees scope locals env) :
    Executes setting scope body rest rounds ⟨code ++ rest, env⟩ w
      ((Semantics.Source.execAll setting scope rounds ss locals).run w) := by
  induction ss generalizing fresh code locals env w with
  | nil =>
      obtain ⟨rfl, -⟩ := stmts_nil_run.mp h
      exact .normal hAgrees
  | cons s ss ih =>
      obtain ⟨hHead, hRest⟩ := List.forall_mem_cons.mp hss
      obtain ⟨headCode, fresh₁, restCode, hFirst, hOthers, rfl⟩ := stmts_cons_run.mp h
      rw [List.append_assoc] at hSuffix ⊢
      have hSuffix₁ := (List.suffix_append headCode _).trans hSuffix
      refine Executes.andThen (hHead _ _ _ hFirst rounds locals env w _ hSuffix hAgrees) ?_
      intro locals₁ env₁ v hAgrees₁
      exact ih v hRest hOthers hSuffix₁ hAgrees₁

/-- A missing statement has no code and does nothing. -/
theorem does_optional (rounds : Nat) (w : World) {o : Option Stmt}
    (ho : ∀ s ∈ o, Does setting scope body s)
    (h : (optionalStmt scope o).run fresh = .ok code fresh') (hSuffix : (code ++ rest) <:+ body)
    (hAgrees : Agrees scope locals env) :
    Executes setting scope body rest rounds ⟨code ++ rest, env⟩ w
      ((Semantics.Source.execOptional setting scope rounds o locals).run w) := by
  cases o with
  | none =>
      obtain ⟨rfl, -⟩ := run_pure_ok.mp h
      exact .normal hAgrees
  | some s => exact ho s rfl _ _ _ h rounds locals env w rest hSuffix hAgrees

/-- A conditional tests and goes to the branch that it should, and both branches end behind it. -/
theorem does_cond {test : Expr} {thenBranch : Stmt} {elseBranch : Option Stmt}
    (hTest : Means setting scope body test) (hThen : Does setting scope body thenBranch)
    (hElse : ∀ s ∈ elseBranch, Does setting scope body s) (hNodup : (Code.labels body).Nodup) :
    Does setting scope body (.cond test thenBranch elseBranch) := by
  intro fresh code fresh' h rounds locals env w rest hSuffix hAgrees
  obtain ⟨c, testCode, fresh₁, labels, fresh₂, elseCode, fresh₃, thenCode, hLowerTest, -, hLowerElse,
    hLowerThen, rfl⟩ := stmt_cond_run.mp h
  let yes : List Instr := thenCode ++ .label labels.2 :: rest
  let no : List Instr := elseCode ++ .goto labels.2 :: .label labels.1 :: yes
  have hCode : testCode ++ conditional labels c thenCode elseCode ++ rest =
      testCode ++ .branch c labels.1 :: no := by
    simp [conditional, no, yes]
  rw [hCode] at hSuffix ⊢
  have hNo : no <:+ body :=
    ((List.suffix_cons _ no).trans (List.suffix_append testCode _)).trans hSuffix
  have hBody : (.label labels.1 :: yes) <:+ body :=
    ((List.suffix_cons _ _).trans (List.suffix_append elseCode _)).trans hNo
  have hYes : yes <:+ body := (List.suffix_cons _ yes).trans hBody
  have hEnd : (.label labels.2 :: rest) <:+ body := (List.suffix_append thenCode _).trans hYes
  rw [Semantics.Source.exec]
  refine Executes.ofComes (hTest.branch hLowerTest hNodup hBody hSuffix hAgrees) ?_
  rintro b t v ⟨env₁, rfl, hKept, -⟩
  have hAgrees₁ := hAgrees.kept hKept
  cases b with
  | true =>
      have hRun := hThen _ _ _ hLowerThen rounds locals env₁ v _ hYes hAgrees₁
      exact .after (.single step_label) (hRun.onward fun env v => ⟨1, .single step_label⟩)
  | false =>
      have hRun := does_optional rounds v hElse hLowerElse hNo hAgrees₁
      exact hRun.onward fun env v => ⟨2, .succ (step_goto hNodup hEnd) (.single step_label)⟩

/-- The places where a loop is about to test: running on from there decides whether another round
begins at `again` or the loop is over. -/
def Tests (setting : Setting) (scope : Scope) (body again rest : List Instr) (test : Expr)
    (s : State) (locals : Semantics.Source.Env) : Prop :=
  ∀ w, Comes (Semantics.Code.step setting body) s w
    ((Semantics.Source.holds setting scope locals test).run w) fun t v =>
      ∃ b, (Semantics.Source.holds setting scope locals test).run w = .ok b v ∧
        ∃ env, t = ⟨if b then again else rest, env⟩ ∧ Agrees scope locals env

/-- A loop from a place where it is about to test. Each round takes a step at least, so a loop that
is cut off after some rounds has taken as many steps. -/
theorem executes_loop {test : Expr} {s : Stmt} {bodyCode afterBody : List Instr} {l : Label}
    (hBody : Does setting scope body s) (hLower : (stmt scope s).run fresh = .ok bodyCode fresh')
    (hSuffix : (bodyCode ++ afterBody) <:+ body)
    (hAgain : ∀ locals env, Agrees scope locals env →
      Tests setting scope body (.label l :: (bodyCode ++ afterBody)) rest test ⟨afterBody, env⟩ locals)
    {left : Nat} (hLeft : left ≤ rounds) {t : State}
    (hTests : Tests setting scope body (.label l :: (bodyCode ++ afterBody)) rest test t locals) :
    Executes setting scope body rest left t w
      ((Semantics.Source.repeatWhile (fun env => Semantics.Source.holds setting scope env test)
        (Semantics.Source.exec setting scope rounds s) left locals).run w) := by
  induction left generalizing locals t w with
  | zero => exact ⟨0, t, Nat.le_refl 0, .zero t w⟩
  | succ left ih =>
      rw [Semantics.Source.repeatWhile]
      refine Executes.ofComes (hTests w) ?_
      rintro b t v ⟨env, rfl, hAgrees⟩
      cases b with
      | false => exact .normal hAgrees
      | true =>
          have hRound := hBody _ _ _ hLower rounds locals env v _ hSuffix hAgrees
          refine .later (.single step_label) (by omega : left + 1 ≤ 1 + left) ?_
          refine Executes.andThen (hRound.fewer (by omega)) ?_
          intro locals₁ env₁ v hAgrees₁
          exact ih (by omega) (hAgain locals₁ env₁ hAgrees₁)

/-- A loop tests before its first round and behind each round; the two places are alike to
`executes_loop`. -/
theorem does_loop {test : Expr} {s : Stmt} (hTest : Means setting scope body test)
    (hBody : Does setting scope body s) (hNodup : (Code.labels body).Nodup) :
    Does setting scope body (.loop test s) := by
  intro fresh code fresh' h rounds locals env w rest hSuffix hAgrees
  obtain ⟨entry, entryCode, fresh₁, labels, fresh₂, bodyCode, fresh₃, again, againCode, hLowerEntry,
    -, hLowerBody, hLowerAgain, rfl⟩ := stmt_loop_run.mp h
  let atEnd : List Instr := .label labels.2 :: rest
  let afterBody : List Instr := againCode ++ .branch again labels.1 :: atEnd
  let afterEntry : List Instr := .goto labels.2 :: .label labels.1 :: (bodyCode ++ afterBody)
  have hCode : entryCode ++ whileLoop labels entry bodyCode (again, againCode) ++ rest =
      entryCode ++ .branch entry labels.1 :: afterEntry := by
    simp [whileLoop, afterEntry, afterBody, atEnd]
  rw [hCode] at hSuffix ⊢
  have hAfterEntry : afterEntry <:+ body :=
    ((List.suffix_cons _ _).trans (List.suffix_append entryCode _)).trans hSuffix
  have hRound : (.label labels.1 :: (bodyCode ++ afterBody)) <:+ body :=
    (List.suffix_cons _ _).trans hAfterEntry
  have hBodySuffix : (bodyCode ++ afterBody) <:+ body := (List.suffix_cons _ _).trans hRound
  have hAfterBody : afterBody <:+ body := (List.suffix_append bodyCode _).trans hBodySuffix
  have hEnd : atEnd <:+ body :=
    ((List.suffix_cons _ _).trans (List.suffix_append againCode _)).trans hAfterBody
  rw [Semantics.Source.exec]
  refine executes_loop (l := labels.1) hBody hLowerBody hBodySuffix ?_ (Nat.le_refl rounds) ?_
  · -- After a round the test stands before the end label.
    intro locals env hAgrees w
    refine (hTest.branch hLowerAgain hNodup hRound hAfterBody hAgrees).thenGo ?_
    rintro t v ⟨b, hOk, env₁, rfl, hKept, -⟩
    cases b with
    | true => exact .here ⟨true, hOk, env₁, rfl, hAgrees.kept hKept⟩
    | false => exact .after (.single step_label) (.here ⟨false, hOk, env₁, rfl, hAgrees.kept hKept⟩)
  · -- Before the first round it stands before a jump to the end label.
    intro w
    refine (hTest.branch hLowerEntry hNodup hRound hSuffix hAgrees).thenGo ?_
    rintro t v ⟨b, hOk, env₁, rfl, hKept, -⟩
    cases b with
    | true => exact .here ⟨true, hOk, env₁, rfl, hAgrees.kept hKept⟩
    | false =>
        refine .after (.succ (step_goto hNodup hEnd) (.single step_label)) ?_
        exact .here ⟨false, hOk, env₁, rfl, hAgrees.kept hKept⟩

/-- Whatever is done with the value of an expression, by the instruction after its code. The instruction
may finish the value and use it in one step. -/
theorem Means.consumed {α : Type} {e : Expr} (he : Means setting scope body e) {use : Use}
    {l : Lowered} (h : (expr scope e use).run fresh = .ok l fresh') {i : Instr}
    {f : Value → Act α} {next : Semantics.Code.Env → α → Semantics.Code.Env}
    (hStep : ∀ env', Kept scope fresh.nextTemp env env' →
      Semantics.Code.step setting body ⟨i :: rest, env'⟩ =
        (Semantics.Code.value setting env' l.value >>= f) >>= fun a =>
          pure (.goOn ⟨rest, next env' a⟩))
    (hSuffix : (l.code ++ i :: rest) <:+ body) (hAgrees : Agrees scope locals env) :
    Comes (Semantics.Code.step setting body) ⟨l.code ++ i :: rest, env⟩ w
      ((Semantics.Source.eval setting scope locals e >>= f).run w) fun t v =>
        ∃ a, (Semantics.Source.eval setting scope locals e >>= f).run w = .ok a v ∧
          ∃ env', Kept scope fresh.nextTemp env env' ∧ t = ⟨rest, next env' a⟩ := by
  refine ((he _ _ _ _ h locals env w _ hSuffix hAgrees).before f).thenGo ?_
  rintro t v ⟨env', rfl, hKept, hYields⟩
  rw [← Semantics.run_bind_congr hYields.run f]
  refine (Comes.ofStep (hStep env' hKept)).mono ?_
  rintro t x ⟨a, hOk, rfl⟩
  exact ⟨a, hOk, env', hKept, rfl⟩

theorem step_putField {object o : Operand} {field : String} {ty : Code.Ty} {a b : Value}
    (hObject : Holds setting env object a) (hValue : Holds setting env o b) :
    Semantics.Code.step setting body ⟨.putField object field ty o :: rest, env⟩ =
      Semantics.writeField a field (.ofType ty) b >>= fun _ => pure (.goOn ⟨rest, env⟩) := by
  simp only [Semantics.Code.step, hObject.operand, hValue.operand, pure_bind]

theorem does_assignVariable {target value : Expr} {name : String} {ty : Source.Ty}
    {d : Source.Declaration} {l : Lowered} (hTarget : target.bare = .ident name ty)
    (hLookup : scope.method.lookup? name = some d) (hValue : Means setting scope body value)
    (hLower : (expr scope value .assignRhs).run fresh = .ok l fresh')
    (hCode : code = l.code ++ [.assign (.variable name (.ofSource d.ty)) (.ofSource d.ty) l.value])
    (hSuffix : (code ++ rest) <:+ body) (hAgrees : Agrees scope locals env) :
    Executes setting scope body rest rounds ⟨code ++ rest, env⟩ w
      ((Semantics.Source.exec setting scope rounds (.assign target value) locals).run w) := by
  rw [hCode, List.append_assoc, List.singleton_append] at hSuffix ⊢
  have hExec : Semantics.Source.exec setting scope rounds (.assign target value) locals =
      (Semantics.Source.eval setting scope locals value >>= pure) >>= fun a =>
        pure (.normal (Function.update locals name a)) := by
    simp only [Semantics.Source.exec, Semantics.Source.assign, hTarget, Source.meaning, hLookup,
      bind_assoc, pure_bind, bind_pure]
  rw [hExec]
  have hStep : ∀ env', Kept scope fresh.nextTemp env env' →
      Semantics.Code.step setting body
        ⟨.assign (.variable name (.ofSource d.ty)) (.ofSource d.ty) l.value :: rest, env'⟩ =
        (Semantics.Code.value setting env' l.value >>= pure) >>= fun a =>
          pure (.goOn ⟨rest, Function.update env' name (some a)⟩) := by
    intro env' _
    rw [bind_pure, step_assign]
  refine Executes.ofComes (hValue.consumed hLower hStep hSuffix hAgrees) ?_
  rintro a t v ⟨env', hKept, rfl⟩
  exact .normal ((hAgrees.kept hKept).update name a)

theorem does_assignField (hKnown : scope.Known) {target value : Expr} {name : String}
    {ty : Source.Ty} {d : Source.Declaration} {o : Operand} {valueCode : List Instr}
    (hTarget : target.bare = .ident name ty) (hLookup : scope.method.lookup? name = none)
    (hField : scope.symbols.visibleField? scope.method.name name = some d)
    (hValue : Means setting scope body value)
    (hLower : (operand scope value).run fresh = .ok (o, valueCode) fresh')
    (hCode : code = valueCode ++ [.putField scope.self name (.ofSource d.ty) o])
    (hSuffix : (code ++ rest) <:+ body) (hAgrees : Agrees scope locals env) :
    Executes setting scope body rest rounds ⟨code ++ rest, env⟩ w
      ((Semantics.Source.exec setting scope rounds (.assign target value) locals).run w) := by
  rw [hCode, List.append_assoc] at hSuffix ⊢
  rw [visibleField?_eq hKnown hLookup] at hField
  have hExec : Semantics.Source.exec setting scope rounds (.assign target value) locals =
      Semantics.Source.eval setting scope locals value >>= fun a =>
        Semantics.writeField setting.self name (Semantics.Source.shapeOf d.ty) a >>= fun _ =>
          pure (.normal locals) := by
    simp only [Semantics.Source.exec, Semantics.Source.assign, hTarget, Source.meaning, hLookup,
      hField, bind_assoc, pure_bind]
  rw [hExec]
  refine Executes.ofComes (hValue.operand hLower hSuffix hAgrees) ?_
  rintro a t v ⟨env', rfl, hKept, hHolds⟩
  have hSelf : Holds setting env' scope.self setting.self := rfl
  refine Executes.ofComes (Comes.ofStep (step_putField hSelf hHolds)) ?_
  rintro _ t v rfl
  exact .normal (hAgrees.kept hKept)

theorem expr_bare (e : Expr) (use : Use) : expr scope e.bare use = expr scope e use := by
  induction e with
  | paren inner ih => exact ih
  | _ => rfl

theorem eval_bare (e : Expr) :
    Semantics.Source.eval setting scope locals e.bare =
      Semantics.Source.eval setting scope locals e := by
  induction e with
  | paren inner ih => exact ih
  | _ => rfl

/-- A variable or a literal has its value without any code. So it has the same value before and after
whatever is evaluated in between. -/
theorem direct_operand (setting : Setting) (locals : Semantics.Source.Env) {e : Expr}
    (hDirect : e.isDirect scope = true) {o : Operand}
    (h : (operand scope e).run fresh = .ok (o, code) fresh') :
    code = [] ∧ ∃ a, Semantics.Source.eval setting scope locals e = pure a ∧
      ∀ env, Agrees scope locals env → Holds setting env o a := by
  have hLower := operand_run.mp h
  rw [← expr_bare] at hLower
  rw [← eval_bare]
  unfold Expr.isDirect at hDirect
  cases hBare : e.bare with
  | intLiteral n =>
      rw [hBare] at hLower
      obtain ⟨⟨⟩, -⟩ := run_pure_ok.mp hLower
      exact ⟨rfl, .int n, rfl, fun env _ => rfl⟩
  | boolLiteral b =>
      rw [hBare] at hLower
      obtain ⟨⟨⟩, -⟩ := run_pure_ok.mp hLower
      exact ⟨rfl, .ofBool b, rfl, fun env _ => rfl⟩
  | ident name ty =>
      rw [hBare] at hLower hDirect
      obtain ⟨d, hLookup⟩ := Option.isSome_iff_exists.mp hDirect
      rcases identifier_run.mp hLower with ⟨d', hFound, hOperand, -⟩ | ⟨_, hFound, -⟩ | ⟨hFound, -⟩
      · cases hOperand
        refine ⟨rfl, locals name, ?_, fun env hAgrees => hAgrees name d hLookup⟩
        show Semantics.Source.readName setting scope locals name = pure (locals name)
        rw [Semantics.Source.readName, Source.meaning, hLookup]
      · rw [hLookup] at hFound
        cases hFound
      · rw [hLookup] at hFound
        cases hFound
  | _ => simp [hBare] at hDirect

/-- An assignment to an item whose array and place are plain. Since these have no code, it does not
matter that the value is lowered first. -/
theorem does_assignElement {target value base place : Expr} {ty : Source.Ty}
    (hTarget : target.bare = .index base place ty) (hBase : base.isDirect scope = true)
    (hPlace : place.isDirect scope = true) (hValue : Means setting scope body value)
    (h : (assignElement scope base place ty value).run fresh = .ok code fresh')
    (hSuffix : (code ++ rest) <:+ body) (hAgrees : Agrees scope locals env) :
    Executes setting scope body rest rounds ⟨code ++ rest, env⟩ w
      ((Semantics.Source.exec setting scope rounds (.assign target value) locals).run w) := by
  obtain ⟨l, fresh₁, o, baseCode, fresh₂, i, placeCode, array, hLower, hLowerBase, hLowerPlace, hArray,
    rfl⟩ := assignElement_run.mp h
  obtain ⟨rfl, a, hEvalBase, hHoldsBase⟩ := direct_operand setting locals hBase hLowerBase
  obtain ⟨rfl, b, hEvalPlace, hHoldsPlace⟩ := direct_operand setting locals hPlace hLowerPlace
  rw [List.append_nil, List.append_nil, List.append_assoc, List.singleton_append] at hSuffix ⊢
  have hExec : Semantics.Source.exec setting scope rounds (.assign target value) locals =
      (Semantics.Source.eval setting scope locals value >>= fun v =>
        Semantics.writeItem a b (Semantics.Source.shapeOf ty) v) >>= fun _ =>
          pure (.normal locals) := by
    simp only [Semantics.Source.exec, Semantics.Source.assign, hTarget, hEvalBase, hEvalPlace,
      bind_assoc, pure_bind]
  rw [hExec]
  have hStep : ∀ env', Kept scope fresh.nextTemp env env' →
      Semantics.Code.step setting body
        ⟨.assign (.element array i (.ofSource ty)) (.ofSource ty) l.value :: rest, env'⟩ =
        (Semantics.Code.value setting env' l.value >>= fun v =>
          Semantics.writeItem a b (Semantics.Source.shapeOf ty) v) >>= fun _ =>
            pure (.goOn ⟨rest, env'⟩) := by
    intro env' hKept
    have hAgrees' := hAgrees.kept hKept
    have hThere := hHoldsBase env' hAgrees'
    cases o with
    | «variable» name ty' =>
        obtain rfl := Option.some.inj hArray
        exact step_assignElement hThere (hHoldsPlace env' hAgrees')
    | _ => cases hArray
  refine Executes.ofComes (hValue.consumed hLower hStep hSuffix hAgrees) ?_
  rintro _ t v ⟨env', hKept, rfl⟩
  exact .normal (hAgrees.kept hKept)

theorem does_assign (hKnown : scope.Known) {target value : Expr}
    (hValue : Means setting scope body value)
    (hDirect : (Stmt.assign target value).hasDirectTargets scope = true) :
    Does setting scope body (.assign target value) := by
  intro fresh code fresh' h rounds locals env w rest hSuffix hAgrees
  rcases assign_run.mp h with ⟨name, ty, hTarget, hName⟩ | ⟨base, place, ty, hTarget, hElement⟩
  · rcases assignName_run.mp hName with ⟨d, l, hLookup, hLower, hCode⟩ |
      ⟨d, o, valueCode, hLookup, hField, hLower, hCode⟩
    · exact does_assignVariable hTarget hLookup hValue hLower hCode hSuffix hAgrees
    · exact does_assignField hKnown hTarget hLookup hField hValue hLower hCode hSuffix hAgrees
  · rw [Stmt.hasDirectTargets, hTarget, Bool.and_eq_true] at hDirect
    exact does_assignElement hTarget hDirect.1 hDirect.2 hValue hElement hSuffix hAgrees

theorem does_ret {value : Option Expr} (hValue : ∀ e ∈ value, Means setting scope body e) :
    Does setting scope body (.ret value) := by
  intro fresh code fresh' h rounds locals env w rest hSuffix hAgrees
  cases value with
  | none =>
      obtain ⟨rfl, -⟩ := ret_none_run.mp h
      exact Ends.returned rfl
  | some e =>
      obtain ⟨o, valueCode, hLower, rfl⟩ := ret_some_run.mp h
      rw [List.append_assoc, List.singleton_append] at hSuffix ⊢
      rw [Semantics.Source.exec]
      refine Executes.ofComes ((hValue e rfl).operand hLower hSuffix hAgrees) ?_
      rintro a t v ⟨env', rfl, -, hHolds⟩
      refine Ends.returned ?_
      simp only [Semantics.Code.step, hHolds.operand, pure_bind]
      rfl

/-- An instruction that has a value may also be run for its effect. The value is found and dropped, and a
stop is the same stop. -/
theorem step_value {i : Instr} (hValue : i.isValue = true) :
    Semantics.Code.step setting body ⟨i :: rest, env⟩ =
      (Semantics.Code.value setting env i >>= pure) >>= fun _ => pure (.goOn ⟨rest, env⟩) := by
  rw [bind_pure]
  cases i with
  | operand o => rfl
  | binary op left right ty => rfl
  | not o ty => rfl
  | getField object field ty => rfl
  | call kind receiver method arguments ty => rfl
  | _ => cases hValue

/-- The code of an expression whose value is dropped does what the expression does. An operand is dropped
without an instruction. -/
theorem Means.discarded {e : Expr} (he : Means setting scope body e) {l : Lowered}
    (h : (expr scope e .discard).run fresh = .ok l fresh') (hSuffix : (discarded l ++ rest) <:+ body)
    (hAgrees : Agrees scope locals env) :
    Comes (Semantics.Code.step setting body) ⟨discarded l ++ rest, env⟩ w
      ((Semantics.Source.eval setting scope locals e).run w)
      (Delivers scope fresh.nextTemp env rest (fun _ _ => True)
        ((Semantics.Source.eval setting scope locals e).run w)) := by
  by_cases hOperand : ∃ o, l.value = .operand o
  · obtain ⟨o, hOperand⟩ := hOperand
    have hCode : Lowering.discarded l = l.code := by
      obtain ⟨value, code⟩ := l
      obtain rfl := hOperand
      rfl
    rw [hCode] at hSuffix ⊢
    refine (he.delivers h (by decide) hOperand hSuffix hAgrees).mono ?_
    rintro t v ⟨a, hOk, env', hState, hKept, -⟩
    exact ⟨a, hOk, env', hState, hKept, trivial⟩
  · have hCode : Lowering.discarded l = l.code ++ [l.value] := by
      obtain ⟨value, code⟩ := l
      cases value with
      | operand o => exact (hOperand ⟨o, rfl⟩).elim
      | _ => rfl
    rw [hCode, List.append_assoc, List.singleton_append] at hSuffix ⊢
    have hStep : ∀ env', Kept scope fresh.nextTemp env env' →
        Semantics.Code.step setting body ⟨l.value :: rest, env'⟩ =
          (Semantics.Code.value setting env' l.value >>= pure) >>= fun _ =>
            pure (.goOn ⟨rest, env'⟩) := fun env' _ => step_value (isValue_expr h)
    have hComes := he.consumed (w := w) h hStep hSuffix hAgrees
    rw [bind_pure] at hComes
    refine hComes.mono ?_
    rintro t v ⟨a, hOk, env', hKept, rfl⟩
    exact ⟨a, hOk, env', rfl, hKept, trivial⟩

/-- An expression that stands as a statement is evaluated, and its value is not kept. -/
theorem does_eval {e : Expr} (he : Means setting scope body e) :
    Does setting scope body (.eval e) := by
  intro fresh code fresh' h rounds locals env w rest hSuffix hAgrees
  obtain ⟨l, hLower, rfl⟩ := stmt_eval_run.mp h
  rw [Semantics.Source.exec]
  refine Executes.ofComes (he.discarded hLower hSuffix hAgrees) ?_
  rintro a t v ⟨env', rfl, hKept, -⟩
  exact .normal (hAgrees.kept hKept)

theorem wellTypedStmts_iff {ss : List Stmt} :
    Source.wellTypedStmts scope ss = true ↔ ∀ s ∈ ss, s.wellTyped scope = true := by
  induction ss with
  | nil => simp [Source.wellTypedStmts]
  | cons s rest ih => simp [Source.wellTypedStmts, ih]

theorem haveDirectTargets_iff {ss : List Stmt} :
    Source.haveDirectTargets scope ss = true ↔ ∀ s ∈ ss, s.hasDirectTargets scope = true := by
  induction ss with
  | nil => simp [Source.haveDirectTargets]
  | cons s rest ih => simp [Source.haveDirectTargets, ih]

/-- Every well-typed statement whose targets are plain does in code what it does in the program. -/
theorem does (hKnown : scope.Known) (hNodup : (Code.labels body).Nodup) {s : Stmt}
    (hTyped : s.wellTyped scope = true) (hDirect : s.hasDirectTargets scope = true) :
    Does setting scope body s := by
  induction s with
  | block statements ih =>
      rw [Stmt.wellTyped, wellTypedStmts_iff] at hTyped
      rw [Stmt.hasDirectTargets, haveDirectTargets_iff] at hDirect
      have hAll : ∀ s ∈ statements, Does setting scope body s :=
        fun s hs => ih s hs (hTyped s hs) (hDirect s hs)
      intro fresh code fresh' h rounds locals env w rest hSuffix hAgrees
      exact does_stmts rounds w hAll h hSuffix hAgrees
  | cond test thenBranch elseBranch hThen hElse =>
      simp only [Stmt.wellTyped, Bool.and_eq_true] at hTyped
      simp only [Stmt.hasDirectTargets, Bool.and_eq_true] at hDirect
      obtain ⟨⟨⟨hTest, -⟩, hThenTyped⟩, hElseTyped⟩ := hTyped
      refine does_cond (means hKnown hNodup hTest) (hThen hThenTyped hDirect.1) ?_ hNodup
      intro s hs
      obtain rfl := Option.mem_def.mp hs
      exact hElse s rfl hElseTyped hDirect.2
  | loop test body ih =>
      simp only [Stmt.wellTyped, Bool.and_eq_true] at hTyped
      rw [Stmt.hasDirectTargets] at hDirect
      exact does_loop (means hKnown hNodup hTyped.1.1) (ih hTyped.2 hDirect) hNodup
  | assign target value =>
      have hValue : value.wellTyped scope = true := by
        simp only [Stmt.wellTyped, Bool.and_eq_true] at hTyped
        exact hTyped.1.2
      exact does_assign hKnown (means hKnown hNodup hValue) hDirect
  | ret value =>
      refine does_ret fun e he => ?_
      obtain rfl := Option.mem_def.mp he
      simp only [Stmt.wellTyped, Bool.and_eq_true] at hTyped
      exact means hKnown hNodup hTyped.1.1
  | eval e =>
      rw [Stmt.wellTyped] at hTyped
      exact does_eval (means hKnown hNodup hTyped)

end

end MiniJava.Lowering
