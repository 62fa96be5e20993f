import MiniJava.Proofs.Lowering.Temporaries
import MiniJava.Proofs.Semantics.Regions
import MiniJava.Proofs.Semantics.Source
import MiniJava.Proofs.Source.WellTyped
import Mathlib.Data.List.Forall2

/-!
Lowered expressions mean what they say. Run from its first instruction, the code of an expression
comes to its end with the variables of the method as they were, having done what the expression
does, and the instruction that is left yields the value. If the expression stops, so does the code.
-/

namespace MiniJava.Lowering

open Code (Condition Instr Label Operand)
open Semantics (Act Comes Ends Next Reaches Setting Stop Value World)
open Semantics.Code (State afterLabel? afterLabel?_of_suffix)
open Source (Expr Meaning meaning)

-- Each form of an expression is unfolded in its own theorem.
attribute [local simp] Semantics.Source.eval

variable {scope : Scope} {setting : Setting} {body : List Instr}

/-- The method of the scope is the one that its class has under that name. A second method of the name
would be lowered with the variables of the first. -/
def Scope.Known (scope : Scope) : Prop :=
  scope.symbols.method? scope.method.name = some scope.method

/-- For the method that its class knows, the field that lowering finds by a name is the one that the
program means. -/
theorem visibleField?_eq (hKnown : scope.Known) {name : String}
    (hLookup : scope.method.lookup? name = none) :
    scope.symbols.visibleField? scope.method.name name = scope.symbols.field? name := by
  rw [Source.SymbolTable.visibleField?, hKnown, Option.bind_some, hLookup]
  rfl

theorem staticTarget?_eq (scope : Scope) (receiver : Expr) :
    scope.staticTarget? receiver = Source.receiverClass? scope receiver := by
  unfold Scope.staticTarget? Source.receiverClass?
  cases receiver.bare with
  | ident name ty =>
      dsimp only
      simp only [Source.meaning_className_iff, Option.isNone_iff_eq_none, Bool.and_eq_true,
        and_assoc]
  | _ => rfl

/-- A call of the class itself is told from the operand as from the program, for an operand that
is an object. -/
theorem fixedArity?_eq {receiver : Expr} {target : Operand} (method : String)
    (hTarget : ∀ className, target = .classRef className ↔
      scope.staticTarget? receiver = some className) :
    scope.fixedArity? target receiver.ty method =
      Source.leadingArguments? scope receiver method := by
  have hSelf : scope.targetsSelf target receiver.ty = Source.callsOwnClass scope receiver := by
    rw [Source.callsOwnClass, ← staticTarget?_eq]
    cases hStatic : scope.staticTarget? receiver with
    | some className =>
        obtain rfl := (hTarget className).mpr hStatic
        rfl
    | none =>
        have hObject : ∀ className, target ≠ .classRef className := by
          intro className hClass
          rw [(hTarget className).mp hClass] at hStatic
          cases hStatic
        unfold Scope.targetsSelf
        split
        · exact (hObject _ rfl).elim
        · rcases hTy : receiver.ty with ⟨name, isArray⟩
          cases isArray <;> simp [Source.Ty.object]
  rw [Scope.fixedArity?, Source.leadingArguments?, hSelf]

/-- Only names that are scratch from number `first` on have changed. So all variables of the program are
as before, and so are temporaries that were taken earlier. -/
def Kept (scope : Scope) (first : Nat) (env env' : Semantics.Code.Env) : Prop :=
  ∀ name, ¬Scratch scope first name → env' name = env name

theorem Kept.refl (first : Nat) (env : Semantics.Code.Env) : Kept scope first env env :=
  fun _ _ => rfl

/-- What one piece of code keeps and what the next one keeps, from a later number on, is kept by both. -/
theorem Kept.trans {first second : Nat} {env env₁ env₂ : Semantics.Code.Env}
    (h₁ : Kept scope first env env₁) (hLe : first ≤ second) (h₂ : Kept scope second env₁ env₂) :
    Kept scope first env env₂ := by
  intro name hName
  have hLater : ¬Scratch scope second name := fun hScratch => hName (hScratch.mono hLe)
  rw [h₂ name hLater, h₁ name hName]

theorem Kept.update {first : Nat} {env env' : Semantics.Code.Env} {name : String} {v : Option Value}
    (h : Kept scope first env env') (hName : Scratch scope first name) :
    Kept scope first env (Function.update env' name v) := by
  intro other hOther
  have hNe : other ≠ name := by
    intro hSame
    exact hOther (hSame ▸ hName)
  rw [Function.update_of_ne hNe]
  exact h other hOther

/-- Every variable of the method has the value that it has in the program. Other variables may have any
value or none. -/
def Agrees (scope : Scope) (locals : Semantics.Source.Env) (env : Semantics.Code.Env) : Prop :=
  ∀ name d, scope.method.lookup? name = some d → env name = some (locals name)

/-- Changing scratch names leaves the variables of the method as they are in the program. No scratch name
is the name of one of them. -/
theorem Agrees.kept {first : Nat} {locals : Semantics.Source.Env} {env env' : Semantics.Code.Env}
    (h : Agrees scope locals env) (hKept : Kept scope first env env') : Agrees scope locals env' := by
  intro name d hLookup
  rw [hKept name (not_scratch_of_taken (lookup_mem_takenNames hLookup))]
  exact h name d hLookup

theorem Agrees.update {locals : Semantics.Source.Env} {env : Semantics.Code.Env}
    (h : Agrees scope locals env) (name : String) (v : Value) :
    Agrees scope (Function.update locals name v) (Function.update env name (some v)) := by
  intro other d hLookup
  by_cases hSame : other = name
  · subst hSame
    rw [Function.update_self, Function.update_self]
  · rw [Function.update_of_ne hSame, Function.update_of_ne hSame]
    exact h other d hLookup

/-- An operand that has a value without looking at the heap. Items of arrays are left out, because what
the heap holds may change before they are read. -/
def Holds (setting : Setting) (env : Semantics.Code.Env) : Operand → Value → Prop
  | .literal n _, v => v = .int n
  | .variable name _, v => env name = some v
  | .self _, v => v = setting.self
  | .element _ _ _, _ | .classRef _, _ => False

/-- Evaluating an operand that has its value gives that value, without looking at the heap. -/
theorem Holds.operand {env : Semantics.Code.Env} {o : Operand} {v : Value}
    (h : Holds setting env o v) : Semantics.Code.operand setting env o = pure v := by
  cases o with
  | literal n ty =>
      obtain rfl := h
      rfl
  | «variable» name ty => rw [Semantics.Code.operand, show env name = some v from h]
  | self ty =>
      obtain rfl := h
      rfl
  | element array place ty => exact h.elim
  | classRef name => exact h.elim

/-- A settled operand keeps its value over code that changes scratch names from a later number on. This
is why operands that were found first may be read last. -/
theorem Holds.kept {first : Nat} {env env' : Semantics.Code.Env} {o : Operand} {v : Value}
    (h : Holds setting env o v) (hSettled : Settled scope first o)
    (hKept : Kept scope first env env') : Holds setting env' o v := by
  cases o with
  | «variable» name ty => exact (hKept name hSettled).trans h
  | element array place ty => exact h.elim
  | classRef name => exact h.elim
  | _ => exact h

theorem Holds.updated {env : Semantics.Code.Env} {name : String} {ty : Code.Ty} {v : Value} :
    Holds setting (Function.update env name (some v)) (.variable name ty) v := by
  show Function.update env name (some v) name = some v
  rw [Function.update_self]

theorem Holds.operands {env : Semantics.Code.Env} {os : List Operand} {vs : List Value}
    (h : List.Forall₂ (Holds setting env) os vs) :
    Semantics.Code.operands setting env os = pure vs := by
  induction h with
  | nil => rfl
  | cons hHead _ ih => simp only [Semantics.Code.operands, hHead.operand, ih, pure_bind]

theorem Holds.all_kept {first : Nat} {env env' : Semantics.Code.Env} {os : List Operand}
    {vs : List Value} (h : List.Forall₂ (Holds setting env) os vs)
    (hSettled : ∀ o ∈ os, Settled scope first o) (hKept : Kept scope first env env') :
    List.Forall₂ (Holds setting env') os vs := by
  induction h with
  | nil => exact .nil
  | cons hHead _ ih =>
      obtain ⟨hFirst, hOthers⟩ := List.forall_mem_cons.mp hSettled
      exact .cons (hHead.kept hFirst hKept) (ih hOthers)

section

variable {env : Semantics.Code.Env} {rest : List Instr} {w v : World}

theorem step_assign {name : String} {ty ty' : Code.Ty} {value : Instr} :
    Semantics.Code.step setting body ⟨.assign (.variable name ty) ty' value :: rest, env⟩ =
      Semantics.Code.value setting env value >>= fun a =>
        pure (.goOn ⟨rest, Function.update env name (some a)⟩) := by
  simp only [Semantics.Code.step, Semantics.Code.assign, bind_assoc, pure_bind]

theorem comes_assign {name : String} {ty ty' : Code.Ty} {value : Instr} {x : Act Value}
    (h : Semantics.Code.value setting env value = x) :
    Comes (Semantics.Code.step setting body) ⟨.assign (.variable name ty) ty' value :: rest, env⟩ w
      (x.run w) fun t v =>
        ∃ a, x.run w = .ok a v ∧ t = ⟨rest, Function.update env name (some a)⟩ := by
  rw [← h]
  exact .ofStep step_assign

/-- Assigning an operand that has its value takes one step, which does nothing but that. -/
theorem step_assign_operand {name : String} {ty ty' : Code.Ty} {o : Operand} {a : Value}
    (h : Holds setting env o a) :
    (Semantics.Code.step setting body
      ⟨.assign (.variable name ty) ty' (.operand o) :: rest, env⟩).run w =
      .ok (.goOn ⟨rest, Function.update env name (some a)⟩) w := by
  rw [step_assign, Semantics.Code.value, h.operand, pure_bind]
  rfl

/-- Assigning an item evaluates the right-hand side and writes to the heap, at an array and a place that
have their values already. -/
theorem step_assignElement {array : String} {place : Operand} {ty ty' : Code.Ty} {value : Instr}
    {base p : Value} (hBase : env array = some base) (hPlace : Holds setting env place p) :
    Semantics.Code.step setting body ⟨.assign (.element array place ty) ty' value :: rest, env⟩ =
      (Semantics.Code.value setting env value >>= fun a =>
        Semantics.writeItem base p (.ofType ty) a) >>= fun _ => pure (.goOn ⟨rest, env⟩) := by
  simp only [Semantics.Code.step, Semantics.Code.assign, hBase, hPlace.operand, bind_assoc,
    pure_bind]

theorem step_label {l : Label} :
    (Semantics.Code.step setting body ⟨.label l :: rest, env⟩).run w = .ok (.goOn ⟨rest, env⟩) w := rfl

theorem step_goto {l : Label} {code : List Instr} (hNodup : (Code.labels body).Nodup)
    (hSuffix : (.label l :: code) <:+ body) :
    (Semantics.Code.step setting body ⟨.goto l :: rest, env⟩).run w =
      .ok (.goOn ⟨.label l :: code, env⟩) w := by
  simp only [Semantics.Code.step, Semantics.Code.jump, afterLabel?_of_suffix hNodup hSuffix]
  rfl

end

/-- The instruction yields the value with the result `r`; if it is an operand that can stand
anywhere, that value is there already. -/
structure Yields (setting : Setting) (env : Semantics.Code.Env) (w : World) (value : Instr)
    (r : EStateM.Result Stop World Value) : Prop where
  run : (Semantics.Code.value setting env value).run w = r
  plain : ∀ o, value = .operand o → o.isElement = false → ∃ v, Holds setting env o v ∧ r = .ok v w

/-- The end of lowered code, with the variables of the method as they were. What remains is the code
behind it, and only scratch variables have changed. -/
def Finished (scope : Scope) (first : Nat) (env : Semantics.Code.Env) (rest : List Instr)
    (P : Semantics.Code.Env → World → Prop) (s : State) (w : World) : Prop :=
  ∃ env', s = ⟨rest, env'⟩ ∧ Kept scope first env env' ∧ P env' w

/-- The end of the code before an instruction that yields the result `r`. The instruction has not run
yet, and running it gives that result. -/
def Ready (setting : Setting) (scope : Scope) (first : Nat) (env : Semantics.Code.Env)
    (rest : List Instr) (value : Instr) (r : EStateM.Result Stop World Value) :
    State → World → Prop :=
  Finished scope first env rest fun env' w => (Semantics.Code.value setting env' value).run w = r

/-- The end of the code of an expression with the result `r`, which `value` is left to yield, at once or
whenever it is used. -/
def Leaves (setting : Setting) (scope : Scope) (first : Nat) (env : Semantics.Code.Env)
    (rest : List Instr) (value : Instr) (r : EStateM.Result Stop World Value) :
    State → World → Prop :=
  Finished scope first env rest fun env' w => Yields setting env' w value r

/-- The end of code that has done all that gives the result `r`. A result that is a stop has no end,
since the code has stopped as well. -/
def Delivers {α : Type} (scope : Scope) (first : Nat) (env : Semantics.Code.Env) (rest : List Instr)
    (P : α → Semantics.Code.Env → Prop) (r : EStateM.Result Stop World α) (s : State) (w : World) :
    Prop :=
  ∃ a, r = .ok a w ∧ Finished scope first env rest (fun env' _ => P a env') s w

/-- The end of code that has done all that gives the result `r` and has changed no variable. -/
def Continues {α : Type} (env : Semantics.Code.Env) (rest : List Instr)
    (r : EStateM.Result Stop World α) (s : State) (w : World) : Prop :=
  ∃ a, r = .ok a w ∧ s = ⟨rest, env⟩

/-- The code of an expression, in whatever body it stands, goes along with its evaluation. This is what
induction over expressions carries: it speaks of all uses and of all numbers at once. -/
def Means (setting : Setting) (scope : Scope) (body : List Instr) (e : Expr) : Prop :=
  ∀ (use : Use) (fresh : Fresh) (l : Lowered) (fresh' : Fresh),
    (expr scope e use).run fresh = .ok l fresh' →
    ∀ (locals : Semantics.Source.Env) (env : Semantics.Code.Env) (w : World) (rest : List Instr),
      (l.code ++ rest) <:+ body → Agrees scope locals env →
      Comes (Semantics.Code.step setting body) ⟨l.code ++ rest, env⟩ w
        ((Semantics.Source.eval setting scope locals e).run w)
        (Leaves setting scope fresh.nextTemp env rest l.value
          ((Semantics.Source.eval setting scope locals e).run w))

section

variable {fresh fresh₁ fresh' : Fresh} {env : Semantics.Code.Env} {w : World} {rest : List Instr}
  {locals : Semantics.Source.Env} {first : Nat}

/-- The end of the code has been come to with the value still to be computed. -/
theorem Ready.intro {env' : Semantics.Code.Env} {value : Instr}
    {r : EStateM.Result Stop World Value} (hKept : Kept scope first env env')
    (hRun : (Semantics.Code.value setting env' value).run w = r) :
    Ready setting scope first env rest value r ⟨rest, env'⟩ w := ⟨env', rfl, hKept, hRun⟩

/-- An operand that is not read as a right-hand side holds its value when the code is done. -/
theorem Means.delivers {e : Expr} (he : Means setting scope body e) {use : Use} {l : Lowered}
    {o : Operand} (h : (expr scope e use).run fresh = .ok l fresh') (hUse : use ≠ .assignRhs)
    (hOperand : l.value = .operand o) (hSuffix : (l.code ++ rest) <:+ body)
    (hAgrees : Agrees scope locals env) :
    Comes (Semantics.Code.step setting body) ⟨l.code ++ rest, env⟩ w
      ((Semantics.Source.eval setting scope locals e).run w)
      (Delivers scope fresh.nextTemp env rest (fun a env' => Holds setting env' o a)
        ((Semantics.Source.eval setting scope locals e).run w)) := by
  refine (he _ _ _ _ h locals env w rest hSuffix hAgrees).mono ?_
  rintro t v ⟨env', hState, hKept, hYields⟩
  obtain ⟨a, hHolds, hValue⟩ := hYields.plain o hOperand (expr_isElement hUse h o hOperand)
  exact ⟨a, hValue, env', hState, hKept, hHolds⟩

/-- The operand of an expression holds its value when the code is done, or the code has stopped where the
evaluation stops. -/
theorem Means.operand {e : Expr} (he : Means setting scope body e) {o : Operand}
    {code : List Instr} (h : (operand scope e).run fresh = .ok (o, code) fresh')
    (hSuffix : (code ++ rest) <:+ body) (hAgrees : Agrees scope locals env) :
    Comes (Semantics.Code.step setting body) ⟨code ++ rest, env⟩ w
      ((Semantics.Source.eval setting scope locals e).run w)
      (Delivers scope fresh.nextTemp env rest (fun a env' => Holds setting env' o a)
        ((Semantics.Source.eval setting scope locals e).run w)) :=
  he.delivers (operand_run.mp h) (by decide) rfl hSuffix hAgrees

/-- The condition of an expression, tested when the code is done, tells whether the expression
holds. -/
theorem Means.condition {e : Expr} (he : Means setting scope body e) {c : Condition}
    {code : List Instr} (h : (condition scope e).run fresh = .ok (c, code) fresh')
    (hSuffix : (code ++ rest) <:+ body) (hAgrees : Agrees scope locals env) :
    Comes (Semantics.Code.step setting body) ⟨code ++ rest, env⟩ w
      ((Semantics.Source.holds setting scope locals e).run w)
      (Finished scope fresh.nextTemp env rest fun env' v =>
        (Semantics.Code.holds setting env' c).run v =
          (Semantics.Source.holds setting scope locals e).run w) := by
  obtain ⟨value, hLower, hCondition⟩ := condition_run.mp h
  have hComes := (he _ _ _ _ hLower locals env w rest hSuffix hAgrees).before Semantics.truth
  refine hComes.mono ?_
  rintro t v ⟨env', hState, hKept, hYields⟩
  refine ⟨env', hState, hKept, ?_⟩
  have hHolds : Semantics.Code.holds setting env' c =
      Semantics.Code.value setting env' value >>= Semantics.truth := by
    cases value with
    | operand o =>
        obtain rfl := Option.some.inj hCondition
        rfl
    | binary op left right ty =>
        rw [condition?] at hCondition
        split at hCondition
        · obtain rfl := Option.some.inj hCondition
          rfl
        · cases hCondition
    | _ => cases hCondition
  show (Semantics.Code.holds setting env' c).run v = _
  rw [hHolds]
  exact Semantics.run_bind_congr hYields.run Semantics.truth

/-- Operands are evaluated from left to right, and when all is done they hold the values of all. -/
theorem means_operands {es : List Expr} (hes : ∀ e ∈ es, Means setting scope body e)
    {os : List Operand} {code : List Instr}
    (h : (operands scope es).run fresh = .ok (os, code) fresh')
    (hSuffix : (code ++ rest) <:+ body) (hAgrees : Agrees scope locals env) :
    Comes (Semantics.Code.step setting body) ⟨code ++ rest, env⟩ w
      ((Semantics.Source.evalAll setting scope locals es).run w)
      (Delivers scope fresh.nextTemp env rest
        (fun as env' => List.Forall₂ (Holds setting env') os as)
        ((Semantics.Source.evalAll setting scope locals es).run w)) := by
  induction es generalizing fresh os code env w with
  | nil =>
      obtain ⟨rfl, rfl, rfl⟩ := operands_nil_run.mp h
      exact .here ⟨[], rfl, env, rfl, .refl _ env, .nil⟩
  | cons e es ih =>
      obtain ⟨hHead, hRest⟩ := List.forall_mem_cons.mp hes
      obtain ⟨o, headCode, fresh₁, os, restCode, hFirst, hOthers, rfl, rfl⟩ :=
        operands_cons_run.mp h
      rw [List.append_assoc] at hSuffix ⊢
      have hLe := operand_nextTemp hFirst
      rw [Semantics.Source.evalAll]
      refine Comes.andThen (hHead.operand hFirst hSuffix hAgrees) ?_
      rintro a t v ⟨env₁, rfl, hKept₁, hHolds⟩
      have hSuffix₁ := (List.suffix_append headCode _).trans hSuffix
      refine Comes.andThen (ih hRest hOthers hSuffix₁ (hAgrees.kept hKept₁)) ?_
      rintro as t v ⟨env₂, rfl, hKept₂, hAll⟩
      refine .here ⟨a :: as, rfl, env₂, rfl, hKept₁.trans hLe hKept₂, .cons ?_ hAll⟩
      exact hHolds.kept (operand_settled hFirst) hKept₂

/-- An instruction that is left after the code, or whose value is put into a temporary. Either way the
value is that of the instruction at the end of the code. -/
theorem comes_finish {mayStay : Bool} {value : Instr} {code : List Instr} {l : Lowered}
    {r : EStateM.Result Stop World Value} (hValue : isPlain value = false)
    (hFinish : (finish scope mayStay value code).run fresh₁ = .ok l fresh')
    (hLe : first ≤ fresh₁.nextTemp) (hSuffix : (l.code ++ rest) <:+ body)
    (hComes : ∀ rest, (code ++ rest) <:+ body →
      Comes (Semantics.Code.step setting body) ⟨code ++ rest, env⟩ w r
        (Ready setting scope first env rest value r)) :
    Comes (Semantics.Code.step setting body) ⟨l.code ++ rest, env⟩ w r
      (Leaves setting scope first env rest l.value r) := by
  rcases finish_run.mp hFinish with ⟨_, rfl, rfl⟩ | ⟨_, name, hTemp, rfl⟩
  · refine (hComes rest hSuffix).mono ?_
    rintro t v ⟨env', hState, hKept, hRun⟩
    refine ⟨env', hState, hKept, hRun, ?_⟩
    intro o hOperand hElement
    simp [isPlain, show value = .operand o from hOperand, hElement] at hValue
  · rw [List.append_assoc] at hSuffix ⊢
    refine (hComes _ hSuffix).thenGo ?_
    rintro t v ⟨env', rfl, hKept, hRun⟩
    rw [← hRun]
    refine (Comes.ofStep step_assign).mono ?_
    rintro t x ⟨a, hOk, rfl⟩
    have hScratch := (Scratch.of_newTemp hTemp).mono hLe
    have hThere : Holds setting (Function.update env' name (some a))
        (.variable name value.valueType) a := .updated
    refine ⟨_, rfl, hKept.update hScratch, ?_, ?_⟩
    · rw [hOk]
      exact congrFun hThere.operand x
    · intro o hOperand _
      obtain rfl := Instr.operand.inj hOperand
      exact ⟨a, hThere, hOk⟩

theorem storeItems_cons (array : String) (place : Nat) (o : Operand) (os : List Operand) :
    storeItems array place (o :: os) =
      .assign (.element array (.int (.ofNat place)) .int32) .int32 (.operand o) ::
        storeItems array (place + 1) os := by
  simp only [storeItems, List.mapIdx_cons, Nat.add_zero, List.cons.injEq, true_and]
  congr 1
  funext i o
  rw [Nat.add_right_comm, Nat.add_assoc]

/-- The items of an array are written one after the other, and no variable changes. The values were found
before, so they are the same at each step. -/
theorem comes_storeItems {array : String} {base : Value} {os : List Operand} {as : List Value}
    (hBase : env array = some base) (hAll : List.Forall₂ (Holds setting env) os as) (place : Nat) :
    Comes (Semantics.Code.step setting body) ⟨storeItems array place os ++ rest, env⟩ w
      ((Semantics.Source.writeItems base place as).run w)
      (Continues env rest ((Semantics.Source.writeItems base place as).run w)) := by
  induction hAll generalizing place w with
  | nil => exact .here ⟨(), rfl, rfl⟩
  | @cons o a os as hHead _ ih =>
      rw [storeItems_cons, Semantics.Source.writeItems]
      have hPlace : Holds setting env (.int (.ofNat place)) (.int (.ofNat place)) := rfl
      have hStep : Semantics.Code.step setting body
          ⟨.assign (.element array (.int (.ofNat place)) .int32) .int32 (.operand o) ::
            (storeItems array (place + 1) os ++ rest), env⟩ =
          Semantics.writeItem base (.int (.ofNat place)) .int a >>= fun _ =>
            pure (.goOn ⟨storeItems array (place + 1) os ++ rest, env⟩) := by
        rw [step_assignElement hBase hPlace, Semantics.Code.value, hHead.operand, pure_bind]
        rfl
      refine Comes.andThen (Comes.ofStep hStep) ?_
      rintro _ t v rfl
      exact ih (place + 1)

/-- The code that fills a new array does what making the array does. The array is in its variable
afterwards, and nothing else has changed. -/
theorem comes_fillArray {array : String} {os : List Operand} {as : List Value} {code : List Instr}
    (h : (fillArray array os).run fresh = .ok code fresh') (hScratch : Scratch scope first array)
    (hSettled : ∀ o ∈ os, Settled scope first o)
    (hAll : List.Forall₂ (Holds setting env) os as) :
    Comes (Semantics.Code.step setting body) ⟨code ++ rest, env⟩ w
      ((Semantics.Source.arrayOf as).run w)
      (Delivers scope first env rest (fun a env' => Holds setting env' (.variable array .intArray) a)
        ((Semantics.Source.arrayOf as).run w)) := by
  obtain ⟨-, rfl, -⟩ := fillArray_run.mp h
  have hNew : Semantics.Code.value setting env (newIntArray (.int (.ofNat os.length))) =
      Semantics.newArray .int (.ofNat as.length) := by
    rw [hAll.length_eq]
    rfl
  rw [Semantics.Source.arrayOf]
  refine Comes.andThen (comes_assign hNew) ?_
  rintro a t v rfl
  have hKept : Kept scope first env (Function.update env array (some a)) :=
    (Kept.refl first env).update hScratch
  have hArray : Function.update env array (some a) array = some a := by
    rw [Function.update_self]
  refine Comes.andThen (comes_storeItems hArray (Holds.all_kept hAll hSettled hKept) 0) ?_
  rintro _ t v rfl
  exact .here ⟨a, rfl, _, rfl, hKept, hArray⟩

/-- Collecting trailing operands does what collecting trailing arguments does. The operands that are
passed on hold what the program passes. -/
theorem comes_collect {arity : Option Nat} {arguments : List Expr} {os values : List Operand}
    {as : List Value} {code : List Instr}
    (h : (collect scope arity arguments os).run fresh = .ok (values, code) fresh')
    (hSettled : ∀ o ∈ os, Settled scope fresh.nextTemp o)
    (hAll : List.Forall₂ (Holds setting env) os as) :
    Comes (Semantics.Code.step setting body) ⟨code ++ rest, env⟩ w
      ((Semantics.Source.passed arity arguments as).run w)
      (Delivers scope fresh.nextTemp env rest
        (fun vs env' => List.Forall₂ (Holds setting env') values vs)
        ((Semantics.Source.passed arity arguments as).run w)) := by
  rcases collect_run.mp h with ⟨hOne, rfl, rfl, rfl⟩ | ⟨n, array, rfl, hOne, hTemp, hFill, rfl⟩
  · have hPassed : Semantics.Source.passed arity arguments as = pure as := by
      cases arity with
      | none => rfl
      | some n =>
          rw [Option.all_some] at hOne
          rw [Semantics.Source.passed, if_pos hOne]
    rw [hPassed]
    exact .here ⟨as, rfl, env, rfl, .refl _ env, hAll⟩
  · rw [Semantics.Source.passed, hOne]
    have hScratch := Scratch.of_newTemp hTemp
    have hDropped : ∀ o ∈ os.drop n, Settled scope fresh.nextTemp o :=
      fun o ho => hSettled o (List.mem_of_mem_drop ho)
    refine Comes.andThen (comes_fillArray hFill hScratch hDropped (List.forall₂_drop n hAll)) ?_
    rintro a t v ⟨env', rfl, hKept, hArray⟩
    have hTaken : List.Forall₂ (Holds setting env') (os.take n) (as.take n) :=
      Holds.all_kept (List.forall₂_take n hAll) (fun o ho => hSettled o (List.mem_of_mem_take ho))
        hKept
    refine .here ⟨_, rfl, env', rfl, hKept, ?_⟩
    exact List.rel_append hTaken (.cons hArray .nil)

/-- The place that a branch comes to after a test with the result `r`: the label if it holds, and the
next instruction if it does not. -/
def Decides (scope : Scope) (first : Nat) (env : Semantics.Code.Env) (yes no : List Instr)
    (r : EStateM.Result Stop World Bool) (s : State) (w : World) : Prop :=
  ∃ b, r = .ok b w ∧ Finished scope first env (if b then yes else no) (fun _ _ => True) s w

/-- A branch goes to its label or to the next instruction, by what its condition gives. The label stands
once in the body, so the jump comes to the right place. -/
theorem step_branch {c : Condition} {l : Label} {target : List Instr}
    (hNodup : (Code.labels body).Nodup) (hTarget : (.label l :: target) <:+ body) :
    Semantics.Code.step setting body ⟨.branch c l :: rest, env⟩ =
      Semantics.Code.holds setting env c >>= fun b =>
        pure (.goOn ⟨if b then .label l :: target else rest, env⟩) := by
  simp only [Semantics.Code.step, Semantics.Code.jump, afterLabel?_of_suffix hNodup hTarget]
  congr 1
  funext b
  cases b <;> rfl

/-- A test and the branch after it go along with the test of the program. Both places that the branch may
come to are known beforehand. -/
theorem Means.branch {e : Expr} (he : Means setting scope body e) {c : Condition}
    {code target : List Instr} {l : Label}
    (h : (Lowering.condition scope e).run fresh = .ok (c, code) fresh')
    (hNodup : (Code.labels body).Nodup) (hTarget : (.label l :: target) <:+ body)
    (hSuffix : (code ++ .branch c l :: rest) <:+ body) (hAgrees : Agrees scope locals env) :
    Comes (Semantics.Code.step setting body) ⟨code ++ .branch c l :: rest, env⟩ w
      ((Semantics.Source.holds setting scope locals e).run w)
      (Decides scope fresh.nextTemp env (.label l :: target) rest
        ((Semantics.Source.holds setting scope locals e).run w)) := by
  refine (he.condition h hSuffix hAgrees).thenGo ?_
  rintro t v ⟨env', rfl, hKept, hRun⟩
  rw [← hRun]
  refine (Comes.ofStep (step_branch hNodup hTarget)).mono ?_
  rintro t x ⟨b, hOk, rfl⟩
  exact ⟨b, hOk, env', rfl, hKept, trivial⟩

/-- `&&` leaves its value in the result variable, whichever way it goes. The right operand is evaluated
on one of the two ways only. -/
theorem comes_shortCircuit {left right : Expr} (hLeft : Means setting scope body left)
    (hRight : Means setting scope body right) {c : Condition} {leftCode rightCode : List Instr}
    {labels : Label × Label} {result : String} {o : Operand} {fresh₂ fresh₃ : Fresh}
    (hLowerLeft : (Lowering.condition scope left).run fresh = .ok (c, leftCode) fresh₁)
    (hLabels : newIfLabels.run fresh₁ = .ok labels fresh₂)
    (hTemp : scope.newTemp.run fresh₂ = .ok result fresh₃)
    (hLowerRight : (Lowering.operand scope right).run fresh₃ = .ok (o, rightCode) fresh')
    (hNodup : (Code.labels body).Nodup)
    (hSuffix : (leftCode ++ shortCircuit labels (.variable result .boolean) c (o, rightCode) ++ rest)
      <:+ body) (hAgrees : Agrees scope locals env) :
    Comes (Semantics.Code.step setting body)
      ⟨leftCode ++ shortCircuit labels (.variable result .boolean) c (o, rightCode) ++ rest, env⟩ w
      ((Semantics.Source.holds setting scope locals left >>= fun b =>
        if b then Semantics.Source.eval setting scope locals right
        else pure (.ofBool false)).run w)
      (Delivers scope fresh.nextTemp env rest
        (fun a env' => Holds setting env' (.variable result .boolean) a)
        ((Semantics.Source.holds setting scope locals left >>= fun b =>
          if b then Semantics.Source.eval setting scope locals right
          else pure (.ofBool false)).run w)) := by
  let atEnd : List Instr := .assign (.variable result .boolean) .boolean (.operand o) ::
    .label labels.2 :: rest
  let skip : List Instr := .assign (.variable result .boolean) .boolean (.operand (.bool false)) ::
    .goto labels.2 :: .label labels.1 :: (rightCode ++ atEnd)
  have hCode : leftCode ++ shortCircuit labels (.variable result .boolean) c (o, rightCode) ++ rest =
      leftCode ++ .branch c labels.1 :: skip := by
    simp [shortCircuit, skip, atEnd]
  rw [hCode] at hSuffix ⊢
  have hSkip : skip <:+ body :=
    ((List.suffix_cons _ skip).trans (List.suffix_append leftCode _)).trans hSuffix
  have hBody : (.label labels.1 :: (rightCode ++ atEnd)) <:+ body :=
    ((List.suffix_cons _ _).trans (List.suffix_cons _ _)).trans hSkip
  have hRightSuffix : (rightCode ++ atEnd) <:+ body := (List.suffix_cons _ _).trans hBody
  have hEnd : (.label labels.2 :: rest) <:+ body :=
    ((List.suffix_cons _ _).trans (List.suffix_append rightCode atEnd)).trans hRightSuffix
  -- The result variable is taken after the left operand and before the right one.
  have hLeftLe := condition_nextTemp hLowerLeft
  rw [newIfLabels_run] at hLabels
  obtain ⟨rfl, rfl⟩ := hLabels
  have hTempLe := newTemp_nextTemp hTemp
  have hScratch : Scratch scope fresh.nextTemp result := (Scratch.of_newTemp hTemp).mono hLeftLe
  refine Comes.andThen (hLeft.branch hLowerLeft hNodup hBody hSuffix hAgrees) ?_
  rintro b t v ⟨env₁, rfl, hKept₁, -⟩
  cases b with
  | false =>
      have hFalse : Holds setting env₁ (.bool false) (.ofBool false) := rfl
      refine .after (.succ (step_assign_operand hFalse)
        (.succ (step_goto hNodup hEnd) (.single step_label))) ?_
      exact .here ⟨.ofBool false, rfl, _, rfl, hKept₁.update hScratch, .updated⟩
  | true =>
      refine .after (.single step_label) ?_
      refine (hRight.operand hLowerRight hRightSuffix (hAgrees.kept hKept₁)).thenGo ?_
      rintro t x ⟨a, hOk, env₂, rfl, hKept₂, hHolds⟩
      refine .after (.succ (step_assign_operand hHolds) (.single step_label)) ?_
      have hKept := hKept₁.trans (Nat.le_trans hLeftLe hTempLe) hKept₂
      exact .here ⟨a, hOk, _, rfl, hKept.update hScratch, .updated⟩

/-- An operand that is there when the code is done yields its value. -/
theorem Delivers.leaves {value : Instr} {o : Operand} {r : EStateM.Result Stop World Value}
    {s : State} (h : Delivers scope first env rest (fun a env' => Holds setting env' o a) r s w)
    (hValue : value = .operand o) : Leaves setting scope first env rest value r s w := by
  subst hValue
  obtain ⟨a, hOk, env', hState, hKept, hHolds⟩ := h
  refine ⟨env', hState, hKept, ?_, ?_⟩
  · rw [Semantics.Code.value, hHolds.operand, hOk]
    rfl
  · intro o' hOperand _
    obtain rfl := Instr.operand.inj hOperand
    exact ⟨a, hHolds, hOk⟩

theorem leaves_operand {o : Operand} {a : Value} (h : Holds setting env o a) :
    Leaves setting scope first env rest (.operand o) ((pure a : Act Value).run w) ⟨rest, env⟩ w :=
  Delivers.leaves ⟨a, rfl, env, rfl, .refl first env, h⟩ rfl

/-- A program's operation on two operands is the operation of the same meaning in code, overflow and
division by zero included. -/
theorem operate_operation (op : Source.BinaryOp) (a b : Int32) :
    Semantics.Code.operate (operation op) a b = Semantics.Source.operate op a b := by
  cases op <;> rfl

/-- A variable is there by itself, and a field is read from the receiver into a temporary. A class is no
value, and the expression is not well-typed then. -/
theorem means_name (hKnown : scope.Known) {name : String} {ty : Source.Ty}
    (hTyped : (Expr.ident name ty).wellTyped scope = true) :
    Means setting scope body (.ident name ty) := by
  intro use fresh l fresh' h locals env w rest hSuffix hAgrees
  have hEval : Semantics.Source.eval setting scope locals (.ident name ty) =
      Semantics.Source.readName setting scope locals name := rfl
  rw [hEval]
  rcases identifier_run.mp h with ⟨d, hLookup, rfl, rfl⟩ | ⟨d, hLookup, hField, hFinish⟩ |
    ⟨hLookup, hField, hClass, -, -⟩
  · have hRead : Semantics.Source.readName setting scope locals name = pure (locals name) := by
      rw [Semantics.Source.readName, Source.meaning, hLookup]
    rw [hRead]
    exact .here (leaves_operand (hAgrees name d hLookup))
  · rw [visibleField?_eq hKnown hLookup] at hField
    have hRead : Semantics.Source.readName setting scope locals name =
        Semantics.readField setting.self name (Semantics.Source.shapeOf d.ty) := by
      rw [Semantics.Source.readName, Source.meaning, hLookup, hField]
    rw [hRead]
    refine comes_finish rfl hFinish (Nat.le_refl _) hSuffix ?_
    intro rest _
    exact .here (.intro (.refl _ env) rfl)
  · rw [visibleField?_eq hKnown hLookup] at hField
    rw [Expr.wellTyped, Source.meaning_className_iff.mpr ⟨hLookup, hField, hClass⟩] at hTyped
    cases hTyped

/-- An item is read once the array and the place have been found, in this order. -/
theorem means_index {base place : Expr} {ty : Source.Ty} (hBase : Means setting scope body base)
    (hPlace : Means setting scope body place) :
    Means setting scope body (.index base place ty) := by
  intro use fresh l fresh' h locals env w rest hSuffix hAgrees
  obtain ⟨o, baseCode, fresh₁, i, placeCode, fresh₂, array, hLowerBase, hLowerPlace, hArray,
    hFinish⟩ := expr_index_run.mp h
  have hLe₁ := operand_nextTemp hLowerBase
  have hLe₂ := operand_nextTemp hLowerPlace
  refine comes_finish rfl hFinish (Nat.le_trans hLe₁ hLe₂) hSuffix ?_
  intro rest hSuffix
  rw [List.append_assoc] at hSuffix ⊢
  rw [Semantics.Source.eval]
  refine Comes.andThen (hBase.operand hLowerBase hSuffix hAgrees) ?_
  rintro a t v ⟨env₁, rfl, hKept₁, hHolds₁⟩
  have hSuffix₁ := (List.suffix_append baseCode _).trans hSuffix
  refine Comes.andThen (hPlace.operand hLowerPlace hSuffix₁ (hAgrees.kept hKept₁)) ?_
  rintro b t v ⟨env₂, rfl, hKept₂, hHolds₂⟩
  refine .here (.intro (hKept₁.trans hLe₁ hKept₂) ?_)
  have hThere := hHolds₁.kept (operand_settled hLowerBase) hKept₂
  cases o with
  | «variable» name ty' =>
      obtain rfl := Option.some.inj hArray
      rw [Semantics.Code.value, Semantics.Code.operand, show env₂ name = some a from hThere]
      simp only [hHolds₂.operand, pure_bind]
      rfl
  | _ => cases hArray

theorem means_not {operand : Expr} (hOperand : Means setting scope body operand) :
    Means setting scope body (.not operand) := by
  intro use fresh l fresh' h locals env w rest hSuffix hAgrees
  obtain ⟨o, code, fresh₁, hLower, hFinish⟩ := expr_not_run.mp h
  refine comes_finish rfl hFinish (operand_nextTemp hLower) hSuffix ?_
  intro rest hSuffix
  rw [Semantics.Source.eval]
  refine Comes.andThen (hOperand.operand hLower hSuffix hAgrees) ?_
  rintro a t v ⟨env', rfl, hKept, hHolds⟩
  refine .here (.intro hKept ?_)
  rw [Semantics.Code.value, hHolds.operand, pure_bind]

theorem means_newArray {size : Expr} (hSize : Means setting scope body size) :
    Means setting scope body (.newArray size) := by
  intro use fresh l fresh' h locals env w rest hSuffix hAgrees
  obtain ⟨o, code, fresh₁, hLower, hFinish⟩ := expr_newArray_run.mp h
  refine comes_finish rfl hFinish (operand_nextTemp hLower) hSuffix ?_
  intro rest hSuffix
  rw [Semantics.Source.eval]
  refine Comes.andThen (hSize.operand hLower hSuffix hAgrees) ?_
  rintro a t v ⟨env', rfl, hKept, hHolds⟩
  refine .here (.intro hKept ?_)
  have hValue : Semantics.Code.value setting env' (newIntArray o) =
      Semantics.Code.operand setting env' o >>= Semantics.newIntArray := rfl
  rw [hValue, hHolds.operand, pure_bind]

theorem means_newObject {className : String} : Means setting scope body (.newObject className) := by
  intro use fresh l fresh' h locals env w rest hSuffix hAgrees
  obtain ⟨object, hTemp, rfl⟩ := expr_newObject_run.mp h
  refine Comes.mono ?_ fun t v hDelivers => Delivers.leaves hDelivers rfl
  rw [Semantics.Source.eval, Semantics.Source.construct]
  have hNew : Semantics.Code.value setting env
      (.call .new (.classRef className) none [] (.object className)) =
      Semantics.newObject (setting.className className) := rfl
  refine Comes.andThen (comes_assign hNew) ?_
  rintro a t v rfl
  have hObject : Holds setting (Function.update env object (some a))
      (.variable object (.object className)) a := .updated
  have hInit : Semantics.Code.step setting body
      ⟨.call .invokeSpecial (.variable object (.object className)) (some "<init>") [] .void :: rest,
        Function.update env object (some a)⟩ =
      Semantics.callSpecial setting a "<init>" [] none >>= fun _ =>
        pure (.goOn ⟨rest, Function.update env object (some a)⟩) := by
    have hCall : Semantics.Code.value setting (Function.update env object (some a))
        (.call .invokeSpecial (.variable object (.object className)) (some "<init>") [] .void) =
        Semantics.callSpecial setting a "<init>" [] none := by
      simp only [Semantics.Code.value, Semantics.Code.call, hObject.operand,
        Semantics.Code.operands, pure_bind]
      rfl
    rw [← hCall]
    rfl
  refine Comes.andThen (Comes.ofStep hInit) ?_
  rintro _ t v rfl
  exact .here ⟨a, rfl, _, rfl, (Kept.refl _ env).update (.of_newTemp hTemp), hObject⟩

theorem means_arrayLiteral {elements : List Expr}
    (hElements : ∀ e ∈ elements, Means setting scope body e) :
    Means setting scope body (.arrayLiteral elements) := by
  intro use fresh l fresh' h locals env w rest hSuffix hAgrees
  obtain ⟨values, code, fresh₁, array, fillCode, hLower, hTemp, hFill, rfl⟩ :=
    expr_arrayLiteral_run.mp h
  refine Comes.mono ?_ fun t v hDelivers => Delivers.leaves hDelivers rfl
  rw [List.append_assoc] at hSuffix ⊢
  rw [Semantics.Source.eval]
  refine Comes.andThen (means_operands hElements hLower hSuffix hAgrees) ?_
  rintro as t v ⟨env₁, rfl, hKept₁, hAll⟩
  refine (comes_fillArray hFill (.of_newTemp hTemp) (operands_settled hLower) hAll).mono ?_
  rintro t x ⟨a, hOk, env₂, rfl, hKept₂, hArray⟩
  exact ⟨a, hOk, env₂, rfl, hKept₁.trans (operands_nextTemp hLower) hKept₂, hArray⟩

/-- Operators find both operands, but `&&` goes past the right one where the left one is false. -/
theorem means_binary {op : Source.BinaryOp} {left right : Expr} {ty : Source.Ty}
    (hNodup : (Code.labels body).Nodup) (hLeft : Means setting scope body left)
    (hRight : Means setting scope body right) :
    Means setting scope body (.binary op left right ty) := by
  intro use fresh l fresh' h locals env w rest hSuffix hAgrees
  by_cases hOp : op = .and
  · subst hOp
    obtain ⟨c, leftCode, fresh₁, labels, fresh₂, result, fresh₃, o, rightCode, hLowerLeft, hLabels,
      hTemp, hLowerRight, rfl⟩ := expr_and_run.mp h
    refine Comes.mono ?_ fun t v hDelivers => Delivers.leaves hDelivers rfl
    have hEval : Semantics.Source.eval setting scope locals (.binary .and left right ty) =
        Semantics.Source.holds setting scope locals left >>= fun b =>
          if b then Semantics.Source.eval setting scope locals right
          else pure (.ofBool false) := by
      simp only [Semantics.Source.eval, Semantics.Source.holds, bind_assoc]
    rw [hEval]
    exact comes_shortCircuit hLeft hRight hLowerLeft hLabels hTemp hLowerRight hNodup hSuffix
      hAgrees
  · obtain ⟨a, leftCode, fresh₁, b, rightCode, fresh₂, hLowerLeft, hLowerRight, hFinish⟩ :=
      (expr_binary_run hOp).mp h
    have hLe₁ := operand_nextTemp hLowerLeft
    have hLe₂ := operand_nextTemp hLowerRight
    refine comes_finish rfl hFinish (Nat.le_trans hLe₁ hLe₂) hSuffix ?_
    intro rest hSuffix
    rw [List.append_assoc] at hSuffix ⊢
    rw [Semantics.Source.eval]
    · refine Comes.andThen (hLeft.operand hLowerLeft hSuffix hAgrees) ?_
      rintro x t v ⟨env₁, rfl, hKept₁, hHolds₁⟩
      have hSuffix₁ := (List.suffix_append leftCode _).trans hSuffix
      refine Comes.andThen (hRight.operand hLowerRight hSuffix₁ (hAgrees.kept hKept₁)) ?_
      rintro y t v ⟨env₂, rfl, hKept₂, hHolds₂⟩
      refine .here (.intro (hKept₁.trans hLe₁ hKept₂) ?_)
      have hThere := hHolds₁.kept (operand_settled hLowerLeft) hKept₂
      simp only [Semantics.Code.value, Semantics.Code.binary, hThere.operand, hHolds₂.operand,
        pure_bind, operate_operation]
    · exact hOp

/-- The length of an array is asked for where a call has its form and a receiver of array type. -/
theorem means_length {receiver : Expr} {method : String} {arguments : List Expr} {ty : Source.Ty}
    (hLength : asksLength receiver method arguments = true)
    (hReceiver : Means setting scope body receiver) :
    Means setting scope body (.call receiver method arguments ty) := by
  intro use fresh l fresh' h locals env w rest hSuffix hAgrees
  obtain ⟨o, code, fresh₁, hLower, hFinish⟩ := (expr_length_run hLength).mp h
  refine comes_finish rfl hFinish (operand_nextTemp hLower) hSuffix ?_
  intro rest hSuffix
  rw [Semantics.Source.eval, if_pos hLength]
  refine Comes.andThen (hReceiver.operand hLower hSuffix hAgrees) ?_
  rintro a t v ⟨env', rfl, hKept, hHolds⟩
  refine .here (.intro hKept ?_)
  simp only [Semantics.Code.value, Semantics.Code.call, hHolds.operand, pure_bind]

/-- A call of a class finds its arguments, collects them where the method asks for it, and asks the
host. -/
theorem means_callStatic {receiver : Expr} {method className : String} {arguments : List Expr}
    {ty : Source.Ty} (hLength : asksLength receiver method arguments = false)
    (hClass : scope.staticTarget? receiver = some className)
    (hArguments : ∀ e ∈ arguments, Means setting scope body e) :
    Means setting scope body (.call receiver method arguments ty) := by
  intro use fresh l fresh' h locals env w rest hSuffix hAgrees
  obtain ⟨kind, target, code, fresh₁, os, argumentCode, fresh₂, values, collectCode, fresh₃,
    hTarget, hLower, hCollect, hFinish⟩ := (expr_call_run hLength).mp h
  rcases callTarget_run.mp hTarget with ⟨_, hFound, rfl, rfl, rfl, rfl⟩ | ⟨hFound, -, -⟩
  · obtain rfl := Option.some.inj (hClass.symm.trans hFound)
    have hLe₁ := operands_nextTemp hLower
    have hLe₂ := collect_nextTemp hCollect
    refine comes_finish rfl ((finishCall_run rfl).mp hFinish).2 (Nat.le_trans hLe₁ hLe₂) hSuffix ?_
    intro rest hSuffix
    rw [List.nil_append, List.append_assoc] at hSuffix ⊢
    have hReceiver : Source.receiverClass? scope receiver = some className := by
      rw [← staticTarget?_eq, hClass]
    have hArity : scope.fixedArity? (.classRef className) receiver.ty method =
        Source.leadingArguments? scope receiver method := by
      refine fixedArity?_eq method fun other => ?_
      rw [hClass, Operand.classRef.injEq, Option.some.injEq]
    rw [hArity] at hCollect
    rw [Semantics.Source.eval, hLength, if_neg Bool.false_ne_true, hReceiver]
    refine Comes.andThen (means_operands hArguments hLower hSuffix hAgrees) ?_
    rintro as t v ⟨env₁, rfl, hKept₁, hAll⟩
    refine Comes.andThen (comes_collect hCollect (operands_settled hLower) hAll) ?_
    rintro vs t v ⟨env₂, rfl, hKept₂, hPassed⟩
    refine .here (.intro (hKept₁.trans hLe₁ hKept₂) ?_)
    simp only [Semantics.Code.value, Semantics.Code.call, Holds.operands hPassed, pure_bind]
    rfl
  · rw [hClass] at hFound
    cases hFound

theorem means_callVirtual {receiver : Expr} {method : String} {arguments : List Expr}
    {ty : Source.Ty} (hLength : asksLength receiver method arguments = false)
    (hObject : scope.staticTarget? receiver = none) (hReceiver : Means setting scope body receiver)
    (hArguments : ∀ e ∈ arguments, Means setting scope body e) :
    Means setting scope body (.call receiver method arguments ty) := by
  intro use fresh l fresh' h locals env w rest hSuffix hAgrees
  obtain ⟨kind, target, code, fresh₁, os, argumentCode, fresh₂, values, collectCode, fresh₃,
    hTarget, hLower, hCollect, hFinish⟩ := (expr_call_run hLength).mp h
  rcases callTarget_run.mp hTarget with ⟨_, hFound, -⟩ | ⟨-, rfl, hLowerReceiver⟩
  · rw [hObject] at hFound
    cases hFound
  · have hLe₁ := operand_nextTemp hLowerReceiver
    have hLe₂ := operands_nextTemp hLower
    have hLe₃ := collect_nextTemp hCollect
    have hLe := Nat.le_trans (Nat.le_trans hLe₁ hLe₂) hLe₃
    refine comes_finish rfl ((finishCall_run rfl).mp hFinish).2 hLe hSuffix ?_
    intro rest hSuffix
    rw [List.append_assoc, List.append_assoc] at hSuffix ⊢
    have hNone : Source.receiverClass? scope receiver = none := by
      rw [← staticTarget?_eq, hObject]
    rw [Semantics.Source.eval, hLength, if_neg Bool.false_ne_true, hNone]
    refine Comes.andThen (hReceiver.operand hLowerReceiver hSuffix hAgrees) ?_
    rintro a t v ⟨env₁, rfl, hKept₁, hHolds⟩
    -- An operand that has a value is no class.
    have hArity : scope.fixedArity? target receiver.ty method =
        Source.leadingArguments? scope receiver method := by
      refine fixedArity?_eq method fun className => ?_
      rw [hObject]
      refine ⟨?_, nofun⟩
      rintro rfl
      exact hHolds.elim
    rw [hArity] at hCollect
    have hSuffix₁ := (List.suffix_append code _).trans hSuffix
    refine Comes.andThen (means_operands hArguments hLower hSuffix₁ (hAgrees.kept hKept₁)) ?_
    rintro as t v ⟨env₂, rfl, hKept₂, hAll⟩
    refine Comes.andThen (comes_collect hCollect (operands_settled hLower) hAll) ?_
    rintro vs t v ⟨env₃, rfl, hKept₃, hPassed⟩
    refine .here (.intro ((hKept₁.trans hLe₁ hKept₂).trans (Nat.le_trans hLe₁ hLe₂) hKept₃) ?_)
    have hSettled := operand_settled hLowerReceiver
    have hThere := (hHolds.kept hSettled hKept₂).kept (hSettled.mono hLe₂) hKept₃
    simp only [Semantics.Code.value, Semantics.Code.call, hThere.operand, Holds.operands hPassed,
      pure_bind]
    rfl

theorem wellTypedAll_iff {es : List Expr} :
    Source.wellTypedAll scope es = true ↔ ∀ e ∈ es, e.wellTyped scope = true := by
  induction es with
  | nil => simp [Source.wellTypedAll]
  | cons e rest ih => simp [Source.wellTypedAll, ih]

/-- Every well-typed expression means in code what it means in the program, by induction on the
expression. The labels of the body must be told apart, since jumps go by them. -/
theorem means (hKnown : scope.Known) (hNodup : (Code.labels body).Nodup) {e : Expr}
    (hTyped : e.wellTyped scope = true) : Means setting scope body e := by
  induction e with
  | intLiteral value =>
      intro use fresh l fresh' h locals env w rest hSuffix hAgrees
      obtain ⟨rfl, rfl⟩ := run_pure_ok.mp h
      have hHolds : Holds setting env (.int value) (.int value) := rfl
      exact .here (leaves_operand hHolds)
  | boolLiteral value =>
      intro use fresh l fresh' h locals env w rest hSuffix hAgrees
      obtain ⟨rfl, rfl⟩ := run_pure_ok.mp h
      have hHolds : Holds setting env (.bool value) (.ofBool value) := rfl
      exact .here (leaves_operand hHolds)
  | self ty =>
      intro use fresh l fresh' h locals env w rest hSuffix hAgrees
      obtain ⟨rfl, rfl⟩ := run_pure_ok.mp h
      have hHolds : Holds setting env scope.self setting.self := rfl
      exact .here (leaves_operand hHolds)
  | ident name ty => exact means_name hKnown hTyped
  | index base place ty hBase hPlace =>
      simp only [Expr.wellTyped, Bool.and_eq_true] at hTyped
      exact means_index (hBase hTyped.1.1.1.1) (hPlace hTyped.1.1.1.2)
  | paren inner hInner => exact hInner hTyped
  | not operand hOperand =>
      simp only [Expr.wellTyped, Bool.and_eq_true] at hTyped
      exact means_not (hOperand hTyped.1)
  | newArray size hSize =>
      simp only [Expr.wellTyped, Bool.and_eq_true] at hTyped
      exact means_newArray (hSize hTyped.1)
  | newObject className => exact means_newObject
  | arrayLiteral elements hElements =>
      simp only [Expr.wellTyped, Bool.and_eq_true, wellTypedAll_iff] at hTyped
      exact means_arrayLiteral fun e he => hElements e he (hTyped.1 e he)
  | binary op left right ty hLeft hRight =>
      simp only [Expr.wellTyped, Bool.and_eq_true] at hTyped
      exact means_binary hNodup (hLeft hTyped.1.1.1.1) (hRight hTyped.1.1.1.2)
  | call receiver method arguments ty hReceiver hArguments =>
      simp only [Expr.wellTyped, Bool.and_eq_true, wellTypedAll_iff] at hTyped
      obtain ⟨⟨⟨hAll, -⟩, -⟩, hCall⟩ := hTyped
      have hMeans : ∀ e ∈ arguments, Means setting scope body e :=
        fun e he => hArguments e he (hAll e he)
      cases hLength : asksLength receiver method arguments with
      | true =>
          rw [if_pos hLength, Bool.and_eq_true] at hCall
          exact means_length hLength (hReceiver hCall.1)
      | false =>
          rw [hLength, if_neg Bool.false_ne_true, ← staticTarget?_eq] at hCall
          cases hStatic : scope.staticTarget? receiver with
          | some className => exact means_callStatic hLength hStatic hMeans
          | none =>
              rw [hStatic] at hCall
              simp only [Bool.and_eq_true] at hCall
              exact means_callVirtual hLength hStatic (hReceiver hCall.1.1) hMeans

end

end MiniJava.Lowering
