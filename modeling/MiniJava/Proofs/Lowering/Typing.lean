import MiniJava.Proofs.Lowering.ExprTyping

/-! Well-typed programs become well-typed code. Every temporary has the one type of the values that
are assigned to it. -/

namespace MiniJava.Lowering

open Code (Context Instr)
open Source (Expr MethodDecl Program Signature Stmt SymbolTable)

variable {scope : Scope} {fresh fresh' : Fresh}

section Statements

variable {code : List Instr}

/-- From the parts to the whole of a list of statements. -/
theorem typed_stmts_of {ss : List Stmt}
    (hParts : ∀ s ∈ ss, ∀ {fresh fresh' code}, (stmt scope s).run fresh = .ok code fresh' →
      Typeable scope fresh fresh' (CodeTyped code))
    (h : (stmts scope ss).run fresh = .ok code fresh') :
    Typeable scope fresh fresh' (CodeTyped code) := by
  induction ss generalizing fresh code with
  | nil =>
      obtain ⟨rfl, rfl⟩ := stmts_nil_run.mp h
      exact .pure fun _ _ => .nil
  | cons s rest ih =>
      obtain ⟨_, _, _, hHead, hRest, rfl⟩ := stmts_cons_run.mp h
      have hOthers := ih (fun s hs => hParts s (List.mem_cons_of_mem _ hs)) hRest
      exact ((hParts s (by simp) hHead).and hOthers).imp fun _ _ hBoth => hBoth.1.append hBoth.2

variable (hSound : scope.Sound)
include hSound

/-- An assignment to a name stores a value that fits the type of the variable or of the field. -/
theorem typed_assignName {name : String} {ty : Source.Ty} {value : Expr}
    (hTarget : (Expr.ident name ty).wellTyped scope = true)
    (hValue : value.wellTyped scope = true) (hFits : value.ty.fits ty = true)
    (h : (assignName scope name value).run fresh = .ok code fresh') :
    Typeable scope fresh fresh' (CodeTyped code) := by
  rcases assignName_run.mp h with ⟨d, l, hLookup, hLower, rfl⟩ |
    ⟨d, o, _, hLookup, hVisible, hLower, rfl⟩
  · refine (lowersTyped hSound hValue _ _ _ _ hLower).imp fun _ hDeclares hTyped => ?_
    rcases wellTyped_ident hTarget with ⟨d', hFound, rfl⟩ | ⟨_, hNone, _⟩
    · obtain rfl := Option.some.inj (hLookup.symm.trans hFound)
      have hTypeFits := hTyped.exact.fits hFits
      have hDeclared := isVoid_ofSource_of (hSound.locals name d hLookup)
      exact hTyped.code.snoc (.assign (hDeclares name d hLookup) hTyped.value
        (hTypeFits.isVoid.symm.trans hDeclared) hTypeFits)
    · rw [hLookup] at hNone
      cases hNone
  · refine ((lowersTyped hSound hValue).operand hLower).imp fun _ _ hTyped => ?_
    rw [visibleField?_eq hSound.known hLookup] at hVisible
    rcases wellTyped_ident hTarget with ⟨_, hFound, _⟩ | ⟨d', _, hField, rfl, hInstance⟩
    · rw [hLookup] at hFound
      cases hFound
    · obtain rfl := Option.some.inj (hVisible.symm.trans hField)
      exact hTyped.code.snoc (.putField hInstance hTyped.typed (hTyped.exact.fits hFits))

/-- An assignment to an item stores a value that fits the type of the items. The array is in a variable,
whose type says what they are. -/
theorem typed_assignElement {base place value : Expr} {ty : Source.Ty}
    (hTarget : (Expr.index base place ty).wellTyped scope = true)
    (hValue : value.wellTyped scope = true) (hFits : value.ty.fits ty = true)
    (h : (assignElement scope base place ty value).run fresh = .ok code fresh') :
    Typeable scope fresh fresh' (CodeTyped code) := by
  simp only [Expr.wellTyped, Bool.and_eq_true, decide_eq_true_eq] at hTarget
  obtain ⟨⟨⟨⟨hBase, hPlace⟩, hArray⟩, hInt⟩, rfl⟩ := hTarget
  obtain ⟨_, _, o, _, _, i, _, array, hLowerValue, hLowerBase, hLowerPlace, hName, rfl⟩ :=
    assignElement_run.mp h
  have hVoid : base.ty.isVoid = false := by
    refine isVoid_of_wellTyped hSound hBase fun hBaseVoid => ?_
    rw [hBaseVoid] at hArray
    cases hArray
  refine (((lowersTyped hSound hValue _ _ _ _ hLowerValue).and
    ((lowersTyped hSound hBase).operand hLowerBase)).and
    ((lowersTyped hSound hPlace).operand hLowerPlace)).imp ?_
  rintro typeOf - ⟨⟨hValue, hBase⟩, hPlace⟩
  obtain ⟨name, rfl, hOf⟩ := hBase.typed.variable_of_array (hBase.exact.array hArray)
  cases hName
  exact ((hValue.code.append hBase.code).append hPlace.code).snoc (.store hOf
    (isElementary_element hVoid) hPlace.typed (hPlace.exact.int hInt) hValue.value
    (hValue.exact.fits hFits))

/-- A well-typed assignment becomes well-typed code, whichever target it has. -/
theorem typed_assign {target value : Expr} (hTarget : target.wellTyped scope = true)
    (hValue : value.wellTyped scope = true) (hFits : value.ty.fits target.ty = true)
    (h : (assign scope target value).run fresh = .ok code fresh') :
    Typeable scope fresh fresh' (CodeTyped code) := by
  rw [← wellTyped_bare] at hTarget
  rw [← ty_bare target] at hFits
  rcases assign_run.mp h with ⟨name, ty, hBare, hName⟩ | ⟨base, place, ty, hBare, hElement⟩
  · rw [hBare] at hTarget hFits
    exact typed_assignName hSound hTarget hValue hFits hName
  · rw [hBare] at hTarget hFits
    exact typed_assignElement hSound hTarget hValue hFits hElement

theorem typed_ret {value : Option Expr} (hTyped : (Stmt.ret value).wellTyped scope = true)
    (h : (ret scope value).run fresh = .ok code fresh') :
    Typeable scope fresh fresh' (CodeTyped code) := by
  cases value with
  | none =>
      obtain ⟨rfl, rfl⟩ := ret_none_run.mp h
      have hVoid := (isVoid_ofSource _).mpr (of_decide_eq_true hTyped)
      exact .pure fun _ _ => List.forall_mem_singleton.mpr (.retNone hVoid)
  | some e =>
      simp only [Stmt.wellTyped, Bool.and_eq_true] at hTyped
      obtain ⟨_, _, hLower, rfl⟩ := ret_some_run.mp h
      refine ((lowersTyped hSound hTyped.1.1).operand hLower).imp fun _ _ hValue => ?_
      exact hValue.code.snoc (.ret hValue.typed (hValue.exact.fits hTyped.2))

theorem typed_discarded {e : Expr} (hTyped : e.wellTyped scope = true) {l : Lowered}
    (h : (expr scope e .discard).run fresh = .ok l fresh') :
    Typeable scope fresh fresh' (CodeTyped (discarded l)) := by
  refine (lowersTyped hSound hTyped _ _ _ _ h).imp fun _ _ hTyped => ?_
  unfold discarded
  split
  · exact hTyped.code
  · exact hTyped.code.snoc (.eval hTyped.value)

/-- Every well-typed statement becomes well-typed code, by induction on the statement. The test of a loop
is lowered twice and typed twice. -/
theorem typed_stmt {s : Stmt} (hTyped : s.wellTyped scope = true)
    (h : (stmt scope s).run fresh = .ok code fresh') :
    Typeable scope fresh fresh' (CodeTyped code) := by
  induction s generalizing fresh code fresh' with
  | block statements hParts =>
      have hEach := wellTypedStmts_iff.mp hTyped
      exact typed_stmts_of (fun s hs _ _ _ => hParts s hs (hEach s hs)) h
  | cond test thenBranch elseBranch hThen hElse =>
      simp only [Stmt.wellTyped, Bool.and_eq_true, decide_eq_true_eq] at hTyped
      obtain ⟨⟨⟨hTest, hBoolean⟩, hThenTyped⟩, hElseTyped⟩ := hTyped
      obtain ⟨c, _, fresh₁, own, fresh₂, elseCode, fresh₃, thenCode, hLowerTest, hLabels, hLowerElse,
        hLowerThen, rfl⟩ := stmt_cond_run.mp h
      rw [newIfLabels_run] at hLabels
      obtain ⟨rfl, rfl⟩ := hLabels
      have hElseCode : Typeable scope { fresh₁ with nextLabel := fresh₁.nextLabel + 1 } fresh₃
          (CodeTyped elseCode) := by
        cases elseBranch with
        | none =>
            obtain ⟨rfl, rfl⟩ := run_pure_ok.mp hLowerElse
            exact .pure fun _ _ => .nil
        | some s => exact hElse s rfl hElseTyped hLowerElse
      refine (((lowersTyped hSound hTest).condition hBoolean hLowerTest).and
        (hElseCode.and (hThen hThenTyped hLowerThen)).label).imp ?_
      rintro typeOf - ⟨⟨hCode, hCondition⟩, hElseCode, hThenCode⟩
      have hSkip : CodeTyped (.branch c ⟨.ifBody, fresh₁.nextLabel⟩ :: elseCode)
          (scope.context typeOf) := List.forall_mem_cons.mpr ⟨.branch hCondition, hElseCode⟩
      have hEnter : CodeTyped (.goto ⟨.endIf, fresh₁.nextLabel⟩ ::
          .label ⟨.ifBody, fresh₁.nextLabel⟩ :: thenCode) (scope.context typeOf) :=
        List.forall_mem_cons.mpr ⟨.goto _, List.forall_mem_cons.mpr ⟨.label _, hThenCode⟩⟩
      exact hCode.append ((hSkip.append hEnter).snoc (.label _))
  | loop test body hBody =>
      simp only [Stmt.wellTyped, Bool.and_eq_true, decide_eq_true_eq] at hTyped
      obtain ⟨⟨hTest, hBoolean⟩, hBodyTyped⟩ := hTyped
      obtain ⟨entry, _, fresh₁, own, _, bodyCode, fresh₃, again, againCode, hLowerTest, hLabels,
        hLower, hAgain, rfl⟩ := stmt_loop_run.mp h
      rw [newWhileLabels_run] at hLabels
      obtain ⟨rfl, rfl⟩ := hLabels
      have hTestLowers := lowersTyped hSound hTest
      refine ((hTestLowers.condition hBoolean hLowerTest).and
        ((hBody hBodyTyped hLower).and (hTestLowers.condition hBoolean hAgain)).label).imp ?_
      rintro typeOf - ⟨⟨hCode, hEntry⟩, hBodyCode, hAgainCode, hAgainTest⟩
      have hEnter : CodeTyped (.branch entry ⟨.whileBody, fresh₁.nextLabel⟩ ::
          .goto ⟨.endWhile, fresh₁.nextLabel⟩ :: .label ⟨.whileBody, fresh₁.nextLabel⟩ :: bodyCode)
          (scope.context typeOf) := by
        simp only [CodeTyped, List.forall_mem_cons]
        exact ⟨.branch hEntry, .goto _, .label _, hBodyCode⟩
      refine hCode.append ((hEnter.append hAgainCode).append ?_)
      exact List.forall_mem_cons.mpr ⟨.branch hAgainTest, List.forall_mem_singleton.mpr (.label _)⟩
  | assign target value =>
      simp only [Stmt.wellTyped, Bool.and_eq_true] at hTyped
      exact typed_assign hSound hTyped.1.1.2 hTyped.1.2 hTyped.2 h
  | ret value => exact typed_ret hSound hTyped h
  | eval e =>
      obtain ⟨_, hLower, rfl⟩ := stmt_eval_run.mp h
      exact typed_discarded hSound hTyped hLower

theorem typed_stmts {ss : List Stmt} (hTyped : Source.wellTypedStmts scope ss = true)
    (h : (stmts scope ss).run fresh = .ok code fresh') :
    Typeable scope fresh fresh' (CodeTyped code) :=
  typed_stmts_of (fun s hs _ _ _ => typed_stmt hSound (wellTypedStmts_iff.mp hTyped s hs)) h

end Statements

section Methods

variable {program : Program} {m : MethodDecl}

theorem lookup_of_mem {typings : List (String × Code.Ty)} (hDistinct : (typings.map (·.1)).Nodup)
    {p : String × Code.Ty} (hp : p ∈ typings) : typings.lookup p.1 = some p.2 := by
  induction typings with
  | nil => cases hp
  | cons head rest ih =>
      obtain ⟨hNew, hRest⟩ := List.nodup_cons.mp hDistinct
      rcases List.mem_cons.mp hp with rfl | hp
      · exact List.lookup_cons_self
      · have hNe : (p.1 == head.1) = false := by
          rw [beq_eq_false_iff_ne]
          exact fun hSame => hNew (List.mem_map.mpr ⟨p, hp, hSame⟩)
        rw [List.lookup_cons, hNe]
        exact ih hRest hp

/-- Types for the temporaries taken give types to all variables, because no temporary has the name of a
declared one. -/
theorem Typeable.exists_types {Q : Context → Prop} (h : Typeable scope fresh fresh' Q) :
    ∃ typeOf, Declares scope typeOf ∧ Q (scope.context typeOf) := by
  obtain ⟨typings, hTakes, hQ⟩ := h
  have hDeclares : Declares scope fun name =>
      ((scope.method.lookup? name).map fun d => .ofSource d.ty).or (typings.lookup name) := by
    intro name d hLookup
    dsimp only
    rw [hLookup]
    rfl
  refine ⟨_, hDeclares, hQ _ hDeclares fun p hp => ?_⟩
  have hFree := (hTakes.number (List.mem_map_of_mem hp)).1
  have hLookup : scope.method.lookup? p.1 = none := by
    rw [← Option.not_isSome_iff_eq_none, Option.isSome_iff_exists]
    exact fun ⟨d, hFound⟩ => hFree (lookup_mem_takenNames hFound)
  rw [hLookup]
  exact lookup_of_mem hTakes.nodup hp

theorem sound_scope (hTyped : program.WellTyped) (hm : m ∈ program.decl.methods) :
    (m.scope program).Sound where
  known := method?_eq hTyped.distinct hm
  locals name d h := by
    have hDeclared := (hTyped.methods m hm).declared d (mem_of_lookup? h)
    rwa [Source.Declaration.wellTyped, Bool.not_eq_true'] at hDeclared
  fields name d h := by
    have hDeclared := hTyped.fields d (List.mem_of_find?_eq_some h)
    rwa [Source.Declaration.wellTyped, Bool.not_eq_true'] at hDeclared
  className := hTyped.className
  varargs method signature hMethod hVarargs := by
    obtain ⟨other, hOther, rfl⟩ := List.mem_map.mp (List.mem_of_find?_eq_some hMethod)
    change other.parameters.getLast?.any (·.isVarargs) = true at hVarargs
    cases hLast : other.parameters.getLast? with
    | none =>
        rw [hLast] at hVarargs
        cases hVarargs
    | some d =>
        rw [hLast] at hVarargs
        obtain ⟨first, hParameters⟩ := List.getLast?_eq_some_iff.mp hLast
        have hMarked : d.isVarargs = true := hVarargs
        have hArray : d.ty = .intArray := by
          simpa [Source.MethodDecl.collectsIntegers, hLast, hMarked] using
            (hTyped.methods other hOther).collects
        refine ⟨first.map (·.ty), ?_⟩
        change other.parameters.map (·.ty) = _
        rw [hParameters, List.map_append, List.map_singleton, hArray]

/-- The code of a method of a well-typed program is well-typed, for some types of its variables. -/
theorem typed_method (hTyped : program.WellTyped) (hm : m ∈ program.decl.methods)
    {lowered : Code.Method} (h : (method (.ofProgram program) m).run fresh = .ok lowered fresh') :
    ∃ typeOf, Declares (m.scope program) typeOf ∧
      CodeTyped lowered.body ((m.scope program).context typeOf) := by
  obtain ⟨code, hLower, hBody⟩ := method_body hTyped.distinct hm h
  obtain ⟨typeOf, hDeclares, hCode⟩ :=
    (typed_stmts (sound_scope hTyped hm) (hTyped.methods m hm).body hLower).exists_types
  refine ⟨typeOf, hDeclares, ?_⟩
  rcases hBody with ⟨hVoid, hEnd⟩ | ⟨_, _, hEnd⟩ | ⟨_, hEnd⟩
  · rw [hEnd]
    have hType : Code.Ty.ofSource m.returnType = .void := by rw [hVoid]; rfl
    have hRet : (Instr.ret none (Code.Ty.ofSource m.returnType)).Typed
      ((m.scope program).context typeOf) := .retNone ((isVoid_ofSource _).mpr hVoid)
    rw [hType] at hRet
    exact hCode.snoc hRet
  · rw [hEnd]
    exact hCode
  · rw [hEnd]
    exact hCode

/-- Every method of lowered code was lowered from one of the program, from some numbers which the methods
before it have left. -/
theorem exists_source {symbols : SymbolTable} {ms : List MethodDecl} {lowered : List Code.Method}
    (h : (methods symbols ms).run fresh = .ok lowered fresh') {target : Code.Method}
    (hTarget : target ∈ lowered) :
    ∃ m ∈ ms, ∃ first last, (method symbols m).run first = .ok target last := by
  induction ms generalizing fresh lowered with
  | nil =>
      obtain ⟨rfl, _⟩ := methods_nil_run.mp h
      cases hTarget
  | cons m rest ih =>
      obtain ⟨first, fresh₁, others, hFirst, hRest, rfl⟩ := methods_cons_run.mp h
      rcases List.mem_cons.mp hTarget with rfl | hOther
      · exact ⟨m, List.mem_cons_self, fresh, fresh₁, hFirst⟩
      · obtain ⟨source, hSource, hLowered⟩ := ih hRest hOther
        exact ⟨source, List.mem_cons_of_mem _ hSource, hLowered⟩

theorem methods_length {symbols : SymbolTable} {ms : List MethodDecl} {lowered : List Code.Method}
    (h : (methods symbols ms).run fresh = .ok lowered fresh') : lowered.length = ms.length := by
  induction ms generalizing fresh lowered with
  | nil => rw [(methods_nil_run.mp h).1, List.length_nil, List.length_nil]
  | cons first rest ih =>
      obtain ⟨_, _, _, _, hRest, rfl⟩ := methods_cons_run.mp h
      rw [List.length_cons, List.length_cons, ih hRest]

/-- The method at a place is lowered from that of the program at the same place. -/
theorem methods_getElem? {symbols : SymbolTable} {ms : List MethodDecl} {lowered : List Code.Method}
    (h : (methods symbols ms).run fresh = .ok lowered fresh') {k : Nat} {m : MethodDecl}
    (hm : ms[k]? = some m) :
    ∃ target first last, lowered[k]? = some target ∧
      (method symbols m).run first = .ok target last := by
  induction ms generalizing fresh lowered k with
  | nil => cases hm
  | cons other rest ih =>
      obtain ⟨target, fresh₁, others, hFirst, hRest, rfl⟩ := methods_cons_run.mp h
      cases k with
      | zero =>
          obtain rfl := Option.some.inj hm
          exact ⟨target, fresh, fresh₁, rfl, hFirst⟩
      | succ k => exact ih hRest hm

/-- What lowering keeps of the head of a method: its name, its parameters and its result, with types as
code knows them. -/
theorem method_head {symbols : SymbolTable} {lowered : Code.Method}
    (h : (method symbols m).run fresh = .ok lowered fresh') :
    lowered.name = m.name ∧ lowered.isStatic = m.isStatic ∧
      lowered.parameters = m.parameters.map variableOf ∧
      lowered.returnType = .ofSource m.returnType := by
  obtain ⟨_, _, _, _, rfl⟩ := method_run.mp h
  unfold closed
  split <;> exact ⟨rfl, rfl, rfl, rfl⟩

/-- Methods are found by name as their sources are, with the parameters of their sources. Of several
methods of a name both find the first. -/
theorem methods_find? {symbols : SymbolTable} {ms : List MethodDecl} {lowered : List Code.Method}
    (h : (methods symbols ms).run fresh = .ok lowered fresh') (name : String) :
    (lowered.find? (·.name = name)).map Code.Method.parameterTypes =
      ((ms.map Source.Signature.ofMethod).find? (·.name = name)).map
        fun signature => signature.parameters.map (.ofSource ·.ty) := by
  induction ms generalizing fresh lowered with
  | nil =>
      obtain ⟨rfl, _⟩ := methods_nil_run.mp h
      rfl
  | cons m rest ih =>
      obtain ⟨first, fresh₁, others, hFirst, hRest, rfl⟩ := methods_cons_run.mp h
      obtain ⟨hName, -, hParameters, -⟩ := method_head hFirst
      rw [List.map_cons, List.find?_cons, List.find?_cons, hName]
      by_cases hSame : m.name = name
      · simp [Source.Signature.ofMethod, hSame, Code.Method.parameterTypes, hParameters, variableOf]
      · simpa [Source.Signature.ofMethod, hSame] using ih hRest

/-- The parameters by which a method is called in code are those that its head declares. So a call and
the header of its method cannot disagree. -/
theorem method?_parameterTypes {withConstructor : Bool} {program : Source.Program}
    {unit : Code.ClassUnit} (hUnit : ofProgram withConstructor program = .ok unit) (name : String) :
    (unit.method? name).map Code.Method.parameterTypes =
      ((SymbolTable.ofProgram program).method? name).map
        fun signature => signature.parameters.map (.ofSource ·.ty) := by
  obtain ⟨_, _, hMethods, rfl⟩ := ofProgram_ok.mp hUnit
  exact methods_find? hMethods name

end Methods

end MiniJava.Lowering
