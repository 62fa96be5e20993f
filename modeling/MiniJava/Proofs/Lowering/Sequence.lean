import MiniJava.Proofs.Lowering.Failures
import MiniJava.Proofs.Lowering.Temporaries

/-! Classes that are lowered one after the other with the same numbers. A class that fails leaves the
numbers where it stopped, which may be anywhere; no later class takes notice, since each starts them anew. -/

namespace MiniJava.Lowering

open Source (Expr MethodDecl Program Signature Stmt SymbolTable)

variable {scope : Scope} {fresh fresh' : Fresh} {error : CompileError}

/-- Statements fail where the rest of them fails after the first ones have been lowered. The numbers that
these have taken are kept. -/
theorem stmts_append_error {body rest : List Stmt} {code : List Code.Instr} {middle : Fresh}
    (hBody : (stmts scope body).run fresh = .ok code middle)
    (hRest : (stmts scope rest).run middle = .error error fresh') :
    (stmts scope (body ++ rest)).run fresh = .error error fresh' := by
  induction body generalizing fresh code with
  | nil =>
      obtain ⟨rfl, rfl⟩ := stmts_nil_run.mp hBody
      exact hRest
  | cons s body ih =>
      obtain ⟨_, later, _, hHead, hTail, rfl⟩ := stmts_cons_run.mp hBody
      rw [List.cons_append, stmts, run_bind_error]
      exact .inr ⟨_, later, hHead, run_bind_error.mpr (.inl (ih hTail))⟩

/-- A statement that moves the numbers by one moves them by `n` when it stands there `n` times. -/
theorem stmts_replicate {s : Stmt} {f : Nat → Fresh}
    (h : ∀ k, ∃ code, (stmt scope s).run (f k) = .ok code (f (k + 1))) (n k : Nat) :
    ∃ code, (stmts scope (List.replicate n s)).run (f k) = .ok code (f (k + n)) := by
  induction n generalizing k with
  | zero => exact ⟨_, rfl⟩
  | succ n ih =>
      obtain ⟨headCode, hHead⟩ := h k
      obtain ⟨code, hTail⟩ := ih (k + 1)
      rw [Nat.add_assoc, Nat.add_comm 1 n] at hTail
      exact ⟨_, stmts_cons_run.mpr ⟨headCode, _, code, hHead, hTail, rfl⟩⟩

namespace Waste

/-- `new Waste();` -/
def make : Stmt := .eval (.newObject "Waste")

/-- `if (true) {}` -/
def choose : Stmt := .cond (.boolLiteral true) (.block []) none

/-- `ghost;` -/
def stray : Stmt := .eval (.ident "ghost" .int)

/-- A method that takes so many temporaries and labels and then fails. It shows that every state of the
numbers can be left behind by a failure. -/
def run (fresh : Fresh) : MethodDecl where
  name := "run"
  isPublic := true
  isStatic := true
  returnType := .void
  parameters := []
  locals := []
  body := List.replicate fresh.nextTemp make ++ (List.replicate fresh.nextLabel choose ++ [stray])

/-- A class with this method alone. -/
def program (fresh : Fresh) : Program := ⟨[], ⟨"Waste", none, [], [run fresh]⟩⟩

/-- The scope of the method. -/
def inside (fresh : Fresh) : Scope := ⟨.ofProgram (program fresh), .ofMethod (run fresh)⟩

theorem make_run (fresh : Fresh) (t l : Nat) :
    ∃ code, (stmt (inside fresh) make).run ⟨t, l⟩ = .ok code ⟨t + 1, l⟩ := by
  have hNone : tempName t ∉ (inside fresh).takenNames := List.not_mem_nil
  have hTemp : (inside fresh).newTemp.run ⟨t, l⟩ = .ok (tempName t) ⟨t + 1, l⟩ := by
    rw [newTemp_run, firstFree_of_free hNone]
  exact ⟨_, stmt_eval_run.mpr ⟨_, expr_newObject_run.mpr ⟨_, hTemp, rfl⟩, rfl⟩⟩

theorem choose_run (fresh : Fresh) (t l : Nat) :
    ∃ code, (stmt (inside fresh) choose).run ⟨t, l⟩ = .ok code ⟨t, l + 1⟩ := ⟨_, rfl⟩

/-- The error by which the method fails. -/
def failure : CompileError := .unresolved .variable "ghost" "method 'run'"

theorem stray_run (fresh : Fresh) :
    (stmts (inside fresh) [stray]).run fresh = .error failure fresh := rfl

end Waste

/-- Whatever the numbers, some class fails midway through a method and leaves just them behind. -/
theorem exists_failing_unit (defaultConstructor : Bool) (fresh : Fresh) : ∃ program error,
    answer (classUnit defaultConstructor program (.ofProgram program)) .start =
      (.error error, fresh) := by
  obtain ⟨_, hTemps⟩ := stmts_replicate (f := fun t => ⟨t, 0⟩)
    (fun k => Waste.make_run fresh k 0) fresh.nextTemp 0
  obtain ⟨_, hLabels⟩ := stmts_replicate (f := fun l => ⟨fresh.nextTemp, l⟩)
    (Waste.choose_run fresh fresh.nextTemp) fresh.nextLabel 0
  rw [Nat.zero_add] at hTemps hLabels
  have hBody : (stmts (Waste.inside fresh) (Waste.run fresh).body).run .start =
      .error Waste.failure fresh :=
    stmts_append_error hTemps (stmts_append_error hLabels (Waste.stray_run fresh))
  have hMethod : (method (.ofProgram (Waste.program fresh)) (Waste.run fresh)).run .start =
      .error Waste.failure fresh := run_bind_error.mpr (.inl hBody)
  have hMethods : (methods (.ofProgram (Waste.program fresh)) [Waste.run fresh]).run .start =
      .error Waste.failure fresh := run_bind_error.mpr (.inl hMethod)
  have hUnit : (classUnit defaultConstructor (Waste.program fresh)
      (.ofProgram (Waste.program fresh))).run .start = .error Waste.failure fresh :=
    run_bind_error.mpr (.inr ⟨(), .start, rfl, run_bind_error.mpr (.inl hMethods)⟩)
  refine ⟨Waste.program fresh, Waste.failure, ?_⟩
  rw [answer, hUnit]

/-- Neither the answer of the step nor the numbers it leaves behind depend on those it finds. A class is
such a step, an expression is not. -/
def StartsAnew {α : Type} (step : Lower α) : Prop :=
  ∀ fresh, answer step fresh = answer step .start

theorem startsAnew_classUnit (defaultConstructor : Bool) (program : Program) (symbols : SymbolTable) :
    StartsAnew (classUnit defaultConstructor program symbols) := fun _ => rfl

/-- Steps that start anew give, one after another, what each of them gives alone, whether or not those
before it fail. -/
theorem answers_of_startsAnew {α : Type} {steps : List (Lower α)}
    (h : ∀ step ∈ steps, StartsAnew step) (fresh : Fresh) :
    answers fresh steps = steps.map fun step => (answer step .start).1 := by
  induction steps generalizing fresh with
  | nil => rfl
  | cons step rest ih =>
      obtain ⟨hFirst, hRest⟩ := List.forall_mem_cons.mp h
      rw [answers, List.map_cons, ih hRest, hFirst fresh]

/-- Classes that are lowered one after the other, with whatever numbers those before them left behind, and
whether or not they failed, give the answers that each gives alone. All numbers occur there: some class
fails midway and leaves just them. -/
theorem answers_alone (defaultConstructor : Bool) (fresh : Fresh) :
    (∀ units : List (Program × SymbolTable),
      answers fresh (units.map fun unit => classUnit defaultConstructor unit.1 unit.2) =
        units.map fun unit => (answer (classUnit defaultConstructor unit.1 unit.2) .start).1) ∧
      ∃ program error, answer (classUnit defaultConstructor program (.ofProgram program)) .start =
        (.error error, fresh) := by
  refine ⟨fun units => ?_, exists_failing_unit defaultConstructor fresh⟩
  have hAnew : ∀ step ∈ units.map fun unit => classUnit defaultConstructor unit.1 unit.2,
      StartsAnew step := by
    intro step hStep
    obtain ⟨unit, -, rfl⟩ := List.mem_map.mp hStep
    exact startsAnew_classUnit defaultConstructor unit.1 unit.2
  rw [answers_of_startsAnew hAnew, List.map_map]
  rfl

end MiniJava.Lowering
