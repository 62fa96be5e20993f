import MiniJava.Proofs.Assembly.Constructors
import MiniJava.Proofs.Assembly.Entry
import MiniJava.Proofs.Assembly.Meaning
import MiniJava.Proofs.Lowering.MethodMeaning

/-!
Methods do in stack code what they do in three-address code. The stack machine imitates every step, from
states between instructions to states between instructions.
-/

namespace MiniJava.Assembly

open Code (Complete Condition Context Label Method Operand Ty)
open Lowering (allocation construction)
open Source (MethodDecl Program)
open Semantics (Act Ends Imitates Reaches Returns SameBehaviour Setting Shape Value World)
open Semantics.Stack (Runs)

/-- Code selected for the body of a method, which runs with the slots and the names that it was
selected for. -/
structure Selected (site : Site) (c : Context) (setting : Setting) (source : List Code.Instr)
    (body : List Stack.Instr) (last : Progress) : Prop where
  lays : Frame.Lays site.method.receiverSlots (Frame.order site.method) site.frame
  isStatic : site.method.isStatic = c.isStatic
  className : setting.className = qualify site.scope.unit
  typed : ∀ i ∈ source, i.Typed c
  complete : Complete source
  resolved : Code.Resolved source
  nodup : (Stack.labels body).Nodup
  code : ∃ first, first.pending = [] ∧ (codeOf site source).run first = .ok (body, last)

/-- What there is on the stack before some code: nothing, or the object that has just been allocated. In
the second case the code begins with its constructor call. -/
inductive Stands (p : Progress) (env : Semantics.Code.Env) : List Code.Instr → List Value → Prop
  | atRest {rest : List Code.Instr} (hPending : p.pending = []) (hComplete : Complete rest) :
      Stands p env rest []
  | waiting {name className : String} {rest : List Code.Instr} {v : Value}
      (hPending : p.pending = [name]) (hComplete : Complete rest) (hValue : env name = some v) :
      Stands p env (construction name className :: rest) [v]

/-- Two states at the same place, the one in the source and the other one in its code. Variables and
slots agree, and so do stack and pending objects. -/
structure Relates (site : Site) (c : Context) (setting : Setting) (source : List Code.Instr)
    (body : List Stack.Instr) (last : Progress) (s : Semantics.Code.State) (t : Semantics.Stack.State) :
    Prop where
  mirrors : Mirrors site c setting s.env t.store.slots
  source : s.rest <:+ source
  code : t.rest <:+ body
  stands : ∃ p, (codeOf site s.rest).run p = .ok (t.rest, last) ∧ Stands p s.env s.rest t.store.stack

section

variable {site : Site} {c : Context} {setting : Setting} {source : List Code.Instr}
  {body : List Stack.Instr} {last : Progress} {env : Semantics.Code.Env}
  {slots : Nat → Option Value} {w : World}

/-- The code of a label is that label, and stands where nothing waits. So a jump comes to a place of
which everything is known. -/
theorem exists_at_label {l : Label} {p : Progress} {code : List Stack.Instr} (hComplete : Complete source)
    (hPending : p.pending = []) (h : (codeOf site source).run p = .ok (code, last))
    (hLabel : l ∈ Code.labels source) :
    ∃ rest others q, (.label l :: rest) <:+ source ∧ (.label l.text :: others) <:+ code ∧
      (codeOf site (.label l :: rest)).run q = .ok (.label l.text :: others, last) ∧ q.pending = [] ∧
      Complete (.label l :: rest) := by
  induction hComplete generalizing p code with
  | nil => cases hLabel
  | @single i rest hPlain hRest ih =>
      obtain ⟨first, p₁, others, hFirst, hOthers, rfl⟩ := codeOf_cons_run.mp h
      rw [Code.labels_cons, List.mem_append] at hLabel
      rcases hLabel with hHere | hLater
      · obtain rfl : i = .label l := by
          cases i <;> simp at hHere
          rw [hHere]
        obtain ⟨rfl, -⟩ := Site.instr_label_run.mp hFirst
        exact ⟨rest, others, p, List.suffix_refl _, List.suffix_refl _, h, hPending, .single hPlain hRest⟩
      · obtain ⟨hPending₁, -⟩ := moves_instr hPending hPlain hFirst
        obtain ⟨rest', others', q, hSource, hCode, hThere⟩ := ih hPending₁ hOthers hLater
        exact ⟨rest', others', q, hSource.trans (List.suffix_cons _ _),
          hCode.trans (List.suffix_append _ _), hThere⟩
  | @object name className rest hRest ih =>
      obtain ⟨first, p₁, tail, hFirst, hTail, rfl⟩ := codeOf_cons_run.mp h
      obtain ⟨second, p₂, others, hSecond, hOthers, rfl⟩ := codeOf_cons_run.mp hTail
      obtain ⟨rfl, -⟩ := allocation_run hPending hFirst
      obtain ⟨rfl, -⟩ := construction_run rfl hSecond
      obtain ⟨rest', others', q, hSource, hCode, hThere⟩ := ih rfl hOthers hLabel
      exact ⟨rest', others', q, hSource.trans (List.suffix_append _ _),
        (hCode.trans (List.suffix_append _ _)).trans (List.suffix_append _ _), hThere⟩

variable (hSelected : Selected site c setting source body last)
  (hMirrors : Mirrors site c setting env slots)

include hSelected hMirrors

/-- Jumps with the same target go to the same place, since labels have one text each and stand once in
the code. -/
theorem jump_eq {l : Label} (hLabel : l ∈ Code.labels source) :
    ∃ s t, Semantics.Code.jump source env l = pure (.goOn s) ∧
      Semantics.Stack.jump body ⟨[], slots⟩ l.text = pure (.goOn t) ∧
      Relates site c setting source body last s t := by
  obtain ⟨first, hPending, hBody⟩ := hSelected.code
  obtain ⟨rest, others, q, hSource, hCode, hRun, hRest, hComplete⟩ :=
    exists_at_label hSelected.complete hPending hBody hLabel
  refine ⟨⟨.label l :: rest, env⟩, ⟨.label l.text :: others, ⟨[], slots⟩⟩, ?_, ?_, ?_⟩
  · rw [Semantics.Code.jump, Semantics.Code.afterLabel?_of_suffix hSelected.resolved.nodup hSource]
  · exact Semantics.Stack.jump_of_suffix hSelected.nodup hCode
  · exact ⟨hMirrors, hSource, hCode, q, hRun, .atRest hRest hComplete⟩

/-- A branch that is taken in the source is taken in the code, and one that is not goes on in both. -/
theorem imitates_choice {b : Bool} {l : Label} {i : Stack.Instr} {stack : List Value}
    {rest : List Code.Instr} {others : List Stack.Instr} (hLabel : l ∈ Code.labels source)
    (hNext : Relates site c setting source body last ⟨rest, env⟩ ⟨others, ⟨[], slots⟩⟩)
    (hStep : Semantics.Stack.step setting body ⟨i :: others, ⟨stack, slots⟩⟩ =
      if b then Semantics.Stack.jump body ⟨[], slots⟩ l.text else pure (.goOn ⟨others, ⟨[], slots⟩⟩)) :
    Imitates (Semantics.Stack.step setting body) (Relates site c setting source body last)
      ⟨i :: others, ⟨stack, slots⟩⟩ w
      ((if b then Semantics.Code.jump source env l else pure (.goOn ⟨rest, env⟩)).run w) := by
  cases b with
  | true =>
      obtain ⟨s, t, hSource, hCode, hThere⟩ := jump_eq hSelected hMirrors hLabel
      rw [if_pos rfl, hCode] at hStep
      rw [if_pos rfl, hSource]
      exact .single (congrArg (·.run w) hStep) hThere
  | false =>
      rw [if_neg Bool.false_ne_true] at hStep
      rw [if_neg Bool.false_ne_true]
      exact .single (congrArg (·.run w) hStep) hNext

omit hSelected hMirrors in
/-- An instruction whose code goes along with it, from an empty stack to an empty stack. -/
theorem imitates_carried {i : Code.Instr} {rest : List Code.Instr} {code others : List Stack.Instr}
    {x : Act Semantics.Code.Env} (hCarries : Carries site c setting body code slots x)
    (hStep : Semantics.Code.step setting source ⟨i :: rest, env⟩ =
      x >>= fun env' => pure (.goOn ⟨rest, env'⟩))
    (hNext : ∀ env' slots', Mirrors site c setting env' slots' →
      Relates site c setting source body last ⟨rest, env'⟩ ⟨others, ⟨[], slots'⟩⟩)
    (hSuffix : (code ++ others) <:+ body) :
    Imitates (Semantics.Stack.step setting body) (Relates site c setting source body last)
      ⟨code ++ others, ⟨[], slots⟩⟩ w
      ((Semantics.Code.step setting source ⟨i :: rest, env⟩).run w) := by
  obtain ⟨hNonempty, after, hRuns, hMirrors'⟩ := hCarries
  rw [hStep]
  refine .ofComes ((hRuns others w hSuffix).mono ?_)
  rintro t v ⟨env', hRun, rfl⟩
  refine ⟨env', hRun, hNext _ _ (hMirrors' env' ⟨w, v, hRun⟩), fun hSame => ?_⟩
  exact hNonempty (List.self_eq_append_left.mp (congrArg Semantics.Stack.State.rest hSame))

omit hSelected in
/-- After an operand, with a value of its type on the stack. The rest of the instruction goes on from
there. -/
theorem imitates_operand {o : Operand} {code others : List Stack.Instr} {stack : List Value}
    {f : Value → Act (Semantics.Next Semantics.Code.State)} (ho : o.Typed c)
    (h : site.load o = .ok code) (hSuffix : (code ++ others) <:+ body)
    (hNext : ∀ a v, (Shape.ofType o.ty).holds a = true →
      Imitates (Semantics.Stack.step setting body) (Relates site c setting source body last)
        ⟨others, ⟨a :: stack, slots⟩⟩ v ((f a).run v)) :
    Imitates (Semantics.Stack.step setting body) (Relates site c setting source body last)
      ⟨code ++ others, ⟨stack, slots⟩⟩ w ((Semantics.Code.operand setting env o >>= f).run w) := by
  refine .andThen (P := fun a t _ => (Shape.ofType o.ty).holds a = true ∧
    t = ⟨others, ⟨a :: stack, slots⟩⟩) ((runs_load hMirrors ho h _ w hSuffix).mono ?_) ?_
  · rintro t v ⟨a, hRun, rfl⟩
    exact ⟨a, hRun, hMirrors.operand ho ⟨w, v, hRun⟩, rfl⟩
  · rintro a t v ⟨hShape, rfl⟩
    exact hNext a v hShape

/-- A conditional jump: the test is loaded and taken, and the machine goes where the source goes. -/
theorem imitates_branch {condition : Condition} {l : Label} {rest : List Code.Instr}
    {code others : List Stack.Instr} (hCondition : condition.Typed c) (hLabel : l ∈ Code.labels source)
    (h : site.branch condition l.text = .ok code)
    (hNext : Relates site c setting source body last ⟨rest, env⟩ ⟨others, ⟨[], slots⟩⟩)
    (hSuffix : (code ++ others) <:+ body) :
    Imitates (Semantics.Stack.step setting body) (Relates site c setting source body last)
      ⟨code ++ others, ⟨[], slots⟩⟩ w
      ((Semantics.Code.step setting source ⟨.branch condition l :: rest, env⟩).run w) := by
  cases hCondition with
  | @single o ho hBoolean =>
      obtain ⟨operandCode, hLoad, rfl⟩ := Site.branch_single_ok.mp h
      have hStep : Semantics.Code.step setting source ⟨.branch (.single o) l :: rest, env⟩ =
          Semantics.Code.operand setting env o >>= fun a => Semantics.truth a >>= fun b =>
            if b then Semantics.Code.jump source env l else pure (.goOn ⟨rest, env⟩) := by
        rw [← bind_assoc]
        rfl
      rw [List.append_assoc] at hSuffix ⊢
      rw [hStep]
      refine imitates_operand hMirrors ho hLoad hSuffix fun a v hShape => ?_
      rw [hBoolean] at hShape
      obtain ⟨n, rfl⟩ := Semantics.int_of_holds (.inr rfl) hShape
      exact imitates_choice hSelected hMirrors hLabel hNext rfl
  | @compare op left right hOp hLeft hRight hLeftInt hRightInt =>
      obtain ⟨comparison, leftCode, rightCode, hComparison, hLeftCode, hRightCode, rfl⟩ :=
        Site.branch_compare_ok.mp h
      have hStep : Semantics.Code.step setting source ⟨.branch (.compare op left right) l :: rest, env⟩ =
          Semantics.Code.operand setting env left >>= fun a =>
            Semantics.Code.operand setting env right >>= fun b =>
              (Semantics.toInt a >>= fun m => Semantics.toInt b >>= fun n =>
                Semantics.Code.operate op m n) >>= Semantics.truth >>= fun b =>
                  if b then Semantics.Code.jump source env l else pure (.goOn ⟨rest, env⟩) := by
        simp only [Semantics.Code.step, Semantics.Code.holds, Semantics.Code.binary, bind_assoc]
      rw [List.append_assoc, List.append_assoc] at hSuffix ⊢
      rw [hStep]
      refine imitates_operand hMirrors hLeft hLeftCode hSuffix fun a v hFirst => ?_
      refine imitates_operand hMirrors hRight hRightCode
        ((List.suffix_append _ _).trans hSuffix) fun b v hSecond => ?_
      rw [hLeftInt] at hFirst
      rw [hRightInt] at hSecond
      obtain ⟨m, rfl⟩ := Semantics.int_of_holds (.inl rfl) hFirst
      obtain ⟨n, rfl⟩ := Semantics.int_of_holds (.inl rfl) hSecond
      have hTest : ((Semantics.toInt (.int m) >>= fun m => Semantics.toInt (.int n) >>= fun n =>
          Semantics.Code.operate op m n) >>= Semantics.truth) =
            pure (Semantics.Stack.compare comparison m n) := by
        change Semantics.Code.operate op m n >>= Semantics.truth = _
        rw [operate_comparison hComparison, pure_bind, Semantics.truth_ofBool]
      rw [hTest, pure_bind]
      exact imitates_choice hSelected hMirrors hLabel hNext rfl

omit hSelected in
theorem imitates_ret {value : Option Operand} {rest : List Code.Instr} {code others : List Stack.Instr}
    (hTyped : (Code.Instr.ret value c.returnType).Typed c)
    (h : site.ret value c.returnType = .ok code) (hSuffix : (code ++ others) <:+ body) :
    Imitates (Semantics.Stack.step setting body) (Relates site c setting source body last)
      ⟨code ++ others, ⟨[], slots⟩⟩ w
      ((Semantics.Code.step setting source ⟨.ret value c.returnType :: rest, env⟩).run w) := by
  cases hTyped with
  | retNone hVoid =>
      rw [Site.ret_none_ok.mp h]
      exact .returned rfl
  | ret ho hFits =>
      obtain ⟨valueCode, kind, hLoad, hKind, rfl⟩ := Site.ret_some_ok.mp h
      rw [List.append_assoc] at hSuffix ⊢
      refine imitates_operand hMirrors ho hLoad hSuffix fun a v hShape => ?_
      rw [hFits.shape_eq] at hShape
      have hStep : Semantics.Stack.step setting body ⟨.retValue kind :: others, ⟨[a], slots⟩⟩ =
          pure (.finish (some a)) := by
        change Semantics.checked (.ofKind kind) a >>= _ = _
        rw [Semantics.checked, if_pos (holds_ofKind hKind hShape), pure_bind]
      exact .returned (congrArg (·.run v) hStep)
  | eval hYields => cases hYields

/-- A plain instruction: its code does in some steps what the instruction does in one. -/
theorem imitates_plain {i : Code.Instr} {rest : List Code.Instr} {p p₁ : Progress}
    {code others : List Stack.Instr} (hPlain : i.isPlain = true) (hi : i ∈ source)
    (h : (site.instr i).run p = .ok (code, p₁))
    (hNext : ∀ env' slots', Mirrors site c setting env' slots' →
      Relates site c setting source body last ⟨rest, env'⟩ ⟨others, ⟨[], slots'⟩⟩)
    (hSuffix : (code ++ others) <:+ body) :
    Imitates (Semantics.Stack.step setting body) (Relates site c setting source body last)
      ⟨code ++ others, ⟨[], slots⟩⟩ w
      ((Semantics.Code.step setting source ⟨i :: rest, env⟩).run w) := by
  have hNames := hSelected.className
  have hTarget {l : Label} (hTarget : i.target? = some l) : l ∈ Code.labels source :=
    hSelected.resolved.closed l (List.mem_filterMap.mpr ⟨i, hi, hTarget⟩)
  cases hSelected.typed i hi with
  | assign hName hRhs hValue hFits =>
      exact imitates_carried (carries_assign hMirrors hNames hSelected.nodup hSelected.lays
        hSelected.isStatic hName hRhs hValue hFits h) rfl hNext hSuffix
  | store hArray hElementary hPlace hInt hRhs hFits =>
      exact imitates_carried (carries_store hMirrors hNames hSelected.nodup hArray hPlace hRhs h) rfl
        hNext hSuffix
  | allocation | construction => cases hPlain
  | putField hInstance ho hFits =>
      refine imitates_carried (carries_putField hMirrors hInstance ho h) ?_ hNext hSuffix
      simp only [Semantics.Code.step, bind_assoc, pure_bind]
  | retNone hVoid =>
      exact imitates_ret hMirrors (.retNone hVoid) (Site.instr_ret_run.mp h).1 hSuffix
  | ret ho hFits =>
      exact imitates_ret hMirrors (.ret ho hFits) (Site.instr_ret_run.mp h).1 hSuffix
  | branch hCondition =>
      exact imitates_branch hSelected hMirrors hCondition (hTarget rfl) (Site.instr_branch_run.mp h).1
        (hNext env slots hMirrors) hSuffix
  | goto l =>
      obtain ⟨rfl, -⟩ := Site.instr_goto_run.mp h
      obtain ⟨s, t, hSource, hCode, hThere⟩ := jump_eq hSelected hMirrors (hTarget rfl)
      change Imitates _ _ _ _ ((Semantics.Code.jump source env l).run w)
      rw [hSource]
      exact .single (congrArg (·.run w) hCode) hThere
  | label l =>
      obtain ⟨rfl, -⟩ := Site.instr_label_run.mp h
      exact .single rfl (hNext env slots hMirrors)
  | eval hYields =>
      refine imitates_carried (carries_eval hMirrors hNames hSelected.nodup hYields h) ?_ hNext hSuffix
      rw [bind_assoc]
      simp only [pure_bind]
      cases hYields <;> rfl

/-- An allocation: the object is in the slot of its variable, and the second reference to it waits on the
stack. -/
theorem imitates_allocation {name className : String} {rest : List Code.Instr} {p p₁ : Progress}
    {code others : List Stack.Instr} (hName : c.typeOf name = some (.object className))
    (hPending : p.pending = []) (h : (site.instr (allocation name className)).run p = .ok (code, p₁))
    (hNext : ∀ v slots', Mirrors site c setting (Function.update env name (some v)) slots' →
      Relates site c setting source body last ⟨rest, Function.update env name (some v)⟩
        ⟨others, ⟨[v], slots'⟩⟩)
    (hSuffix : (code ++ others) <:+ body) :
    Imitates (Semantics.Stack.step setting body) (Relates site c setting source body last)
      ⟨code ++ others, ⟨[], slots⟩⟩ w
      ((Semantics.Code.step setting source ⟨allocation name className :: rest, env⟩).run w) := by
  obtain ⟨rfl, slot, _, hSlot, ⟨⟩, rfl⟩ := allocation_run hPending h
  have hStep : Semantics.Code.step setting source ⟨allocation name className :: rest, env⟩ =
      Semantics.newObject (qualify site.scope.unit className) >>= fun v =>
        pure (.goOn ⟨rest, Function.update env name (some v)⟩) := by
    rw [← hSelected.className]
    change (Semantics.newObject _ >>= fun v => pure (Function.update env name (some v))) >>= _ = _
    rw [bind_assoc]
    simp only [pure_bind]
  have hRuns : Runs setting body [.new (qualify site.scope.unit className), .dup,
      Stack.storeSlot .reference slot] ⟨[], slots⟩
      (Semantics.newObject (qualify site.scope.unit className))
      fun v => ⟨[v], Function.update slots slot.toNat (some v)⟩ :=
    Semantics.Stack.runs_newObject _ slot
  rw [hStep]
  refine .ofComes ((hRuns others w hSuffix).mono ?_)
  rintro t v ⟨a, hRun, rfl⟩
  refine ⟨a, hRun, hNext a _ ?_, nofun⟩
  exact hMirrors.store hSelected.lays hSelected.isStatic hSlot hName
    (Semantics.returns_allocate ⟨w, v, hRun⟩)

omit hSelected hMirrors in
/-- The constructor call takes the object that waits. It is the same object that the variable holds. -/
theorem imitates_construction {name className : String} {v : Value} {rest : List Code.Instr}
    {p p₁ : Progress} {code others : List Stack.Instr} (hPending : p.pending = [name])
    (hValue : env name = some v) (h : (site.instr (construction name className)).run p = .ok (code, p₁))
    (hNext : Relates site c setting source body last ⟨rest, env⟩ ⟨others, ⟨[], slots⟩⟩)
    (hSuffix : (code ++ others) <:+ body) :
    Imitates (Semantics.Stack.step setting body) (Relates site c setting source body last)
      ⟨code ++ others, ⟨[v], slots⟩⟩ w
      ((Semantics.Code.step setting source ⟨construction name className :: rest, env⟩).run w) := by
  obtain ⟨-, instanceClass, -, rfl⟩ := construction_run hPending h
  have hStep : Semantics.Code.step setting source ⟨construction name className :: rest, env⟩ =
      Semantics.callSpecial setting v "<init>" [] none >>= fun _ => pure (.goOn ⟨rest, env⟩) := by
    simp only [Semantics.Code.step, construction, Semantics.Code.value, Semantics.Code.call,
      Semantics.Code.operand, hValue, Semantics.Code.operands, pure_bind]
    rfl
  rw [hStep]
  refine .ofComes ((Semantics.Stack.runs_init instanceClass v others w hSuffix).mono ?_)
  rintro t w' ⟨a, hRun, rfl⟩
  refine ⟨a, hRun, hNext, fun hSame => ?_⟩
  exact List.cons_ne_self _ _ (congrArg Semantics.Stack.State.rest hSame).symm

omit hMirrors in
/-- Whatever one step of the source does, the stack machine does in some steps, and the two states are
related again. -/
theorem imitates_step {s : Semantics.Code.State} {t : Semantics.Stack.State}
    (h : Relates site c setting source body last s t) :
    Imitates (Semantics.Stack.step setting body) (Relates site c setting source body last) t w
      ((Semantics.Code.step setting source s).run w) := by
  obtain ⟨rest, env⟩ := s
  obtain ⟨code, stack, slots⟩ := t
  obtain ⟨hMirrors, hSource, hCode, p, hRun, hStands⟩ := h
  dsimp only at hMirrors hSource hCode hRun hStands
  cases hStands with
  | atRest hPending hComplete =>
      cases hComplete with
      | nil =>
          obtain ⟨rfl, -⟩ := codeOf_nil_run.mp hRun
          exact .stopped rfl
      | @single i rest hPlain hRest =>
          obtain ⟨first, p₁, others, hFirst, hOthers, rfl⟩ := codeOf_cons_run.mp hRun
          obtain ⟨hPending₁, -⟩ := moves_instr hPending hPlain hFirst
          refine imitates_plain hSelected hMirrors hPlain (hSource.subset List.mem_cons_self) hFirst
            (fun env' slots' hMirrors' => ?_) hCode
          exact ⟨hMirrors', (List.suffix_cons _ _).trans hSource, (List.suffix_append _ _).trans hCode,
            p₁, hOthers, .atRest hPending₁ hRest⟩
      | @object name className rest hRest =>
          obtain ⟨first, p₁, others, hFirst, hOthers, rfl⟩ := codeOf_cons_run.mp hRun
          have hName := (hSelected.typed _ (hSource.subset List.mem_cons_self)).typeOf_allocation
          refine imitates_allocation hSelected hMirrors hName hPending hFirst
            (fun v slots' hMirrors' => ?_) hCode
          refine ⟨hMirrors', (List.suffix_cons _ _).trans hSource, (List.suffix_append _ _).trans hCode,
            p₁, hOthers, .waiting ?_ hRest (Function.update_self _ _ _)⟩
          rw [(allocation_run hPending hFirst).1]
  | @waiting name className rest v hPending hRest hValue =>
      obtain ⟨first, p₁, others, hFirst, hOthers, rfl⟩ := codeOf_cons_run.mp hRun
      refine imitates_construction hPending hValue hFirst ?_ hCode
      refine ⟨hMirrors, (List.suffix_cons _ _).trans hSource, (List.suffix_append _ _).trans hCode,
        p₁, hOthers, .atRest ?_ hRest⟩
      rw [(construction_run hPending hFirst).1]

/-- Code that is run with the values of the variables in their slots behaves as its source. Nothing is
asked of the heap or of the host. -/
theorem Selected.sameBehaviour (w : World) :
    SameBehaviour w (Semantics.Code.run setting source env) (Semantics.Stack.run setting body slots) := by
  obtain ⟨first, hPending, hBody⟩ := hSelected.code
  refine .of_matches (Semantics.Stack.grows_step setting body) fun n => ?_
  refine Semantics.matches_of_imitation (fun _ _ _ => imitates_step hSelected) n w ?_
  exact ⟨hMirrors, List.suffix_refl _, List.suffix_refl _, first, hBody,
    .atRest hPending hSelected.complete⟩

end

/-- The variables of a method when it starts. Only declared ones have values; temporaries have none. -/
def entryEnv (m : MethodDecl) (locals : Semantics.Source.Env) : Semantics.Code.Env := fun name =>
  if name ∈ m.declarations.map (·.name) then some (locals name) else none

/-- What some pieces of a method's code do, whenever they are reached. Each of them is said of the code
where it stands, in the whole body. -/
structure PiecesMean (setting : Setting) (site : Site) (body : List Stack.Instr) : Prop where
  /-- A constant is pushed with exactly its value. -/
  constant : ∀ n ty code, site.load (.literal n ty) = .ok code → ∀ rest stack slots,
    Semantics.Stack.step setting body ⟨code ++ rest, ⟨stack, slots⟩⟩ =
      pure (.goOn ⟨rest, ⟨.int n :: stack, slots⟩⟩)
  /-- A comparison that is turned into a value yields one if it holds, and zero otherwise. -/
  comparison : ∀ comparison labels rest, (Site.comparisonCode comparison labels ++ rest) <:+ body →
    ∀ a b stack slots w, ∃ n, Reaches (Semantics.Stack.step setting body) n
      ⟨Site.comparisonCode comparison labels ++ rest, ⟨.int b :: .int a :: stack, slots⟩⟩ w
      ⟨rest, ⟨.int (if Semantics.Stack.compare comparison a b then 1 else 0) :: stack, slots⟩⟩ w
  /-- A constructor is called on the object that was made and stored just before. -/
  construction : ∀ before method rest, body = before ++ .invoke .special method :: rest →
    ∃ earlier className name slot, site.slot name = .ok slot ∧
      before = earlier ++ [.new className, .dup, Stack.storeSlot .reference slot] ∧
      method = ⟨className, "<init>", [], "V"⟩ ∧
      ∀ stack slots w,
        let object := Value.ref (some w.heap.length)
        let stored := Function.update slots slot.toNat (some object)
        Reaches (Semantics.Stack.step setting body) 3
          ⟨.new className :: .dup :: Stack.storeSlot .reference slot :: .invoke .special method :: rest,
            ⟨stack, slots⟩⟩ w
          ⟨.invoke .special method :: rest, ⟨object :: stack, stored⟩⟩
          ⟨w.heap ++ [.object className []], w.trace⟩ ∧
        Semantics.Stack.step setting body ⟨.invoke .special method :: rest, ⟨object :: stack, stored⟩⟩ =
          Semantics.perform setting ⟨.special w.heap.length, "<init>", [], none⟩ >>= fun _ =>
            pure (.goOn ⟨rest, ⟨stack, stored⟩⟩)

/-- The pieces are read off any selected code of a method that runs with suitable slots; none of the
facts asks for where in the body the piece stands. -/
theorem Selected.piecesMean {site : Site} {c : Context} {setting : Setting} {source : List Code.Instr}
    {body : List Stack.Instr} {last : Progress} (h : Selected site c setting source body last) :
    PiecesMean setting site body where
  constant n ty code hLoad rest stack slots := by
    rw [Site.load_literal_ok.mp hLoad]
    exact Semantics.Stack.step_pushInt n
  comparison comparison labels rest hSuffix a b stack slots w :=
    Semantics.Stack.reaches_comparisonCode h.nodup comparison hSuffix a b
  construction before method rest hSplit := by
    obtain ⟨first, hPending, hBody⟩ := h.code
    obtain ⟨earlier, className, name, slot, hSlot, rfl, rfl⟩ :=
      constructs_codeOf h.complete hPending hBody before method rest hSplit
    refine ⟨earlier, className, name, slot, hSlot, rfl, rfl, fun stack slots w => ⟨?_, ?_⟩⟩
    · exact Semantics.Stack.reaches_newObject className slot
    · exact Semantics.Stack.step_init className _

section

variable {program : Program} {withConstructor : Bool} {unit : Code.ClassUnit} {source : MethodDecl}
  {m : Method} {fresh fresh' : Lowering.Fresh} {frame : Frame} {superName : String}
  {host : Semantics.Host} {self : Value} {locals : Semantics.Source.Env}

/-- When a method starts, each declared variable has the value in its slot that the source starts with, a
parameter as well as a local. Temporaries have none. -/
theorem mirrors_entry (hDistinct : (source.declarations.map (·.name)).Nodup)
    (h : (Lowering.method (.ofProgram program) source).run fresh = .ok m fresh')
    (hFrame : Frame.ofMethod m = .ok frame) {scope : ClassScope} {setting : Setting}
    {typeOf : String → Option Ty} (hDeclares : Lowering.Declares (source.scope program) typeOf)
    (hLocals : ∀ d ∈ source.declarations, (Shape.ofType (.ofSource d.ty)).holds (locals d.name) = true)
    (hSelf : source.isStatic = false → Shape.reference.holds setting.self = true) :
    Mirrors ⟨scope, m, frame⟩ ((source.scope program).context typeOf) setting (entryEnv source locals)
      (entrySlots source frame setting.self fun d => locals d.name) where
  self := hSelf
  named {name ty v} hName hValue := by
    unfold entryEnv at hValue
    split_ifs at hValue with hDeclared
    obtain ⟨d, hd, rfl⟩ := List.mem_map.mp hDeclared
    obtain rfl := Option.some.inj hValue
    obtain rfl := Option.some.inj
      ((hDeclares d.name d (Lowering.lookup?_of_mem hDistinct hd)).symm.trans hName)
    exact hLocals d hd
  receiver hInstance := entrySlots_receiver hInstance
  slot {name slot} hSlot := by
    have hLays := Frame.lays_of_ofMethod hFrame
    unfold entryEnv
    split_ifs with hDeclared
    · obtain ⟨d, hd, rfl⟩ := List.mem_map.mp hDeclared
      exact entrySlots_declared h hDistinct hLays hd (Site.slot_ok.mp hSlot)
    · exact entrySlots_undeclared h hDistinct hLays hDeclared (Site.slot_ok.mp hSlot)

/-- A lowered method that has a frame and code is in the situation in which steps are imitated. -/
theorem selected_method
    (h : (Lowering.method (.ofProgram program) source).run fresh = .ok m fresh')
    (hFrame : Frame.ofMethod m = .ok frame) {typeOf : String → Option Ty}
    (hCode : Lowering.CodeTyped m.body ((source.scope program).context typeOf))
    {comparisons : Nat} {body : List Stack.Instr} {progress : Progress}
    (hBody : (codeOf ⟨.ofUnit superName unit, m, frame⟩ m.body).run ⟨comparisons, []⟩ =
      .ok (body, progress)) :
    Selected ⟨.ofUnit superName unit, m, frame⟩ ((source.scope program).context typeOf)
      ⟨host, self, qualify unit⟩ m.body body progress where
  lays := Frame.lays_of_ofMethod hFrame
  isStatic := (Lowering.method_head h).2.1
  className := rfl
  typed := hCode
  complete := Lowering.complete_method h
  resolved := (Lowering.ownLabels_method h).toResolved
  nodup := (emitted_codeOf hBody).nodup (Lowering.ownLabels_method h).nodup
  code := ⟨_, rfl, hBody⟩

/-- A lowered method is that of the program with its name, if no two methods of the program share one. -/
theorem source_of_name (hTyped : program.WellTyped)
    (hUnit : Lowering.ofProgram withConstructor program = .ok unit)
    (hSource : source ∈ program.decl.methods) (hm : m ∈ unit.methods) (hName : m.name = source.name) :
    ∃ first last, (Lowering.method (.ofProgram program) source).run first = .ok m last := by
  obtain ⟨methods, _, hMethods, rfl⟩ := Lowering.ofProgram_ok.mp hUnit
  obtain ⟨other, hOther, first, last, h⟩ := Lowering.exists_source hMethods hm
  have hSame : other.name = source.name := (Lowering.method_head h).1.symm.trans hName
  rw [List.inj_on_of_nodup_map hTyped.distinct hOther hSource hSame] at h
  exact ⟨first, last, h⟩

end

/-- Whatever its receiver and its variables are, and whatever the heap holds and the host answers, a
method that compiles does in stack code what it does in three-address code: it makes the same calls and
writes, and goes on for ever or ends alike. It starts with nothing on the stack, and with its values in
the slots that its frame gives them. -/
theorem emitted_sameBehaviour {program : Program} {withConstructor : Bool} {unit : Code.ClassUnit}
    {superName : String} {source : MethodDecl} {m : Method} {comparisons after : Nat}
    {block : Stack.Block} (hTyped : program.WellTyped)
    (hUnit : Lowering.ofProgram withConstructor program = .ok unit)
    (hSource : source ∈ program.decl.methods) (hm : m ∈ unit.methods) (hName : m.name = source.name)
    (hBlock : methodBlock (.ofUnit superName unit) comparisons m = .ok (block, after))
    (host : Semantics.Host) (self : Value) (locals : Semantics.Source.Env)
    (hSelf : source.isStatic = false → Shape.reference.holds self = true)
    (hLocals : ∀ d ∈ source.declarations, (Shape.ofType (.ofSource d.ty)).holds (locals d.name) = true) :
    ∃ frame, Frame.ofMethod m = .ok frame ∧
      (∀ w, SameBehaviour w
        (Semantics.Code.run ⟨host, self, qualify unit⟩ m.body (entryEnv source locals))
        (Semantics.Stack.run ⟨host, self, qualify unit⟩ block.body
          (entrySlots source frame self fun d => locals d.name))) ∧
      PiecesMean ⟨host, self, qualify unit⟩ ⟨.ofUnit superName unit, m, frame⟩ block.body := by
  obtain ⟨first, last, h⟩ := source_of_name hTyped hUnit hSource hm hName
  obtain ⟨frame, body, progress, usage, hFrame, hBody, -, rfl, -⟩ := methodBlock_ok.mp hBlock
  obtain ⟨typeOf, hDeclares, hCode⟩ := Lowering.typed_method hTyped hSource h
  have hSelected : Selected ⟨.ofUnit superName unit, m, frame⟩ ((source.scope program).context typeOf)
      ⟨host, self, qualify unit⟩ m.body body progress :=
    selected_method h hFrame hCode hBody
  refine ⟨frame, hFrame, fun w => hSelected.sameBehaviour ?_ w, hSelected.piecesMean⟩
  exact mirrors_entry (hTyped.methods source hSource).distinct h hFrame hDeclares hLocals hSelf

/-- The method with a loop goes through it once if it starts with true. -/
theorem spin_emitted_sameBehaviour :
    Spin.program.WellTyped ∧
      methodBlock (.ofUnit "java/lang/Object" Spin.unit) 0 Spin.method =
        .ok (⟨"static spin(Z)Z", 2, 1, Spin.body⟩, 0) ∧
      (Semantics.Stack.run ⟨default, default, qualify Spin.unit⟩ Spin.body
        (fun slot => if slot = 0 then some (.int 1) else none) 15).run ⟨[], []⟩ =
          .ok (.returned (some (.int 0))) ⟨[], []⟩ ∧
      SameBehaviour ⟨[], []⟩
        (Semantics.Code.run ⟨default, default, qualify Spin.unit⟩ Spin.source
          fun name => if name ∈ ["go"] then some (.int 1) else none)
        (Semantics.Stack.run ⟨default, default, qualify Spin.unit⟩ Spin.body
          fun slot => if slot = 0 then some (.int 1) else none) := by
  have hTyped : Spin.program.WellTyped := by decide
  have hBlock := Spin.block (.ofUnit "java/lang/Object" Spin.unit)
  refine ⟨hTyped, hBlock, by rfl, ?_⟩
  obtain ⟨frame, -, hSame, -⟩ := emitted_sameBehaviour hTyped Spin.lowered (List.mem_singleton_self _)
    (List.mem_singleton_self _) rfl hBlock default default (fun _ => .int 1) nofun (by decide)
  have hEntry (source : MethodDecl) (hSource : Spin.program.decl.methods = [source]) :
      entrySlots source frame default (fun _ => Value.int 1) =
        fun slot => if slot = 0 then some (.int 1) else none := by
    obtain rfl := (List.singleton_inj.mp hSource).symm
    funext slot
    cases slot <;> rfl
  exact hEntry _ rfl ▸ hSame ⟨[], []⟩

end MiniJava.Assembly
