import MiniJava.Proofs.Lowering.Totality
import MiniJava.Proofs.Lowering.Uses
import MiniJava.Proofs.Lowering.Varargs

/-!
Reading a name, assigning to it and calling a method of it. Lowering does each in its own way, and
each takes the name for what it means in the method.
-/

namespace MiniJava.Source

theorem declaration?_eq_none {declarations : List Declaration} {name : String} :
    declaration? declarations name = none ↔ name ∉ declarations.map (·.name) := by
  simp [declaration?]

/-- The names that mean nothing are those that nothing declares: no variable, no field, no import by its
last segment, and not the class. -/
theorem meaning_nothing_iff {scope : Lowering.Scope} {name : String} :
    meaning scope name = .nothing ↔
      name ∉ (scope.method.locals ++ scope.method.parameters ++ scope.symbols.fields).map (·.name) ∧
      name ≠ scope.symbols.className ∧ ∀ path ∈ scope.symbols.imports, lastSegment path ≠ name := by
  have hNone : meaning scope name = .nothing ↔ scope.method.lookup? name = none ∧
      scope.symbols.field? name = none ∧ scope.symbols.isClassReference name = false := by
    unfold meaning
    cases scope.method.lookup? name with
    | some d => simp
    | none =>
        cases scope.symbols.field? name with
        | some d => simp
        | none => cases scope.symbols.isClassReference name <;> simp
  have hLookup : scope.method.lookup? name = none ↔
      name ∉ scope.method.locals.map (·.name) ∧ name ∉ scope.method.parameters.map (·.name) := by
    rw [Signature.lookup?, Option.or_eq_none_iff]
    exact and_congr declaration?_eq_none declaration?_eq_none
  have hClass : scope.symbols.isClassReference name = false ↔ name ≠ scope.symbols.className ∧
      ∀ path ∈ scope.symbols.imports, lastSegment path ≠ name := by
    simp [SymbolTable.isClassReference, SymbolTable.importedClass?, importOf?]
  rw [hNone, hLookup, SymbolTable.field?, declaration?_eq_none, hClass, List.map_append,
    List.map_append, List.mem_append, List.mem_append, not_or, not_or]
  simp only [and_assoc]

end MiniJava.Source

namespace MiniJava.Lowering

open Code (Instr Operand)
open Source (Expr meaning)

variable {scope : Scope} {name temp : String} {fresh fresh' : Fresh} {use : Use} {e : Expr}
  {ty : Source.Ty}

/-- What reading a name becomes, by what the name means: the variable, a temporary with the field, the
class, or a failure. -/
theorem expr_name_run (hKnown : scope.Known) (he : e.bare = .ident name ty)
    (hTemp : scope.newTemp.run fresh = .ok temp fresh') :
    (expr scope e use).run fresh =
      match meaning scope name with
      | .variable ty => .ok (.ofOperand (.variable name (.ofSource ty))) fresh
      | .field ty => .ok ⟨.operand (.variable temp (.ofSource ty)), [.assign
          (.variable temp (.ofSource ty)) (.ofSource ty)
          (.getField scope.self name (.ofSource ty))]⟩ fresh'
      | .className => .ok (.ofOperand (.classRef name)) fresh
      | .nothing => .error (scope.unresolvedVariable name) fresh := by
  rw [← expr_bare, he]
  change (identifier scope name).run fresh = _
  unfold identifier meaning
  cases hLookup : scope.method.lookup? name with
  | some d => rfl
  | none =>
      dsimp only
      rw [visibleField?_eq hKnown hLookup]
      cases scope.symbols.field? name with
      | some d => exact finish_run.mpr (.inr ⟨rfl, temp, hTemp, rfl⟩)
      | none => cases scope.symbols.isClassReference name <;> rfl

/-- A name is read as a variable exactly if it means one, and of the type that is declared. The type
written on the name does not matter. -/
theorem reads_variable_iff (hKnown : scope.Known) (he : e.bare = .ident name ty) {ty : Code.Ty} :
    (expr scope e use).run fresh = .ok (.ofOperand (.variable name ty)) fresh ↔
      ∃ declared, meaning scope name = .variable declared ∧ ty = .ofSource declared := by
  rw [expr_name_run hKnown he (newTemp_run scope fresh)]
  cases meaning scope name <;> simp [Lowered.ofOperand, eq_comm]

/-- A name is read as a field of the receiver exactly if it means one. This takes a temporary. -/
theorem reads_field_iff (hKnown : scope.Known) (he : e.bare = .ident name ty) {ty : Code.Ty}
    (hTemp : scope.newTemp.run fresh = .ok temp fresh') :
    (expr scope e use).run fresh = .ok ⟨.operand (.variable temp ty),
        [.assign (.variable temp ty) ty (.getField scope.self name ty)]⟩ fresh' ↔
      ∃ declared, meaning scope name = .field declared ∧ ty = .ofSource declared := by
  rw [expr_name_run hKnown he hTemp]
  cases meaning scope name <;> simp [Lowered.ofOperand, eq_comm]

theorem reads_class_iff (hKnown : scope.Known) (he : e.bare = .ident name ty) :
    (expr scope e use).run fresh = .ok (.ofOperand (.classRef name)) fresh ↔
      meaning scope name = .className := by
  rw [expr_name_run hKnown he (newTemp_run scope fresh)]
  cases meaning scope name <;> simp [Lowered.ofOperand]

/-- Reading fails exactly where the name means nothing, with an error that names it and takes no
numbers. -/
theorem reading_fails_iff (hKnown : scope.Known) (he : e.bare = .ident name ty)
    {error : CompileError} :
    (expr scope e use).run fresh = .error error fresh' ↔
      error = scope.unresolvedVariable name ∧ fresh' = fresh ∧ meaning scope name = .nothing := by
  rw [expr_name_run hKnown he (newTemp_run scope fresh)]
  cases meaning scope name <;> simp [eq_comm]

section Writing

variable {target value : Expr} {o : Operand} {valueCode : List Instr}

/-- What is assigned to a variable may be more than an operand, so the value is lowered in another way
than for a field. -/
theorem assign_name_run (hKnown : scope.Known) (hTarget : target.bare = .ident name ty)
    (hValue : (operand scope value).run fresh = .ok (o, valueCode) fresh') :
    ∃ l after, (expr scope value .assignRhs).run fresh = .ok l after ∧
      (assign scope target value).run fresh =
        match meaning scope name with
        | .variable ty =>
            .ok (l.code ++ [.assign (.variable name (.ofSource ty)) (.ofSource ty) l.value]) after
        | .field ty => .ok (valueCode ++ [.putField scope.self name (.ofSource ty) o]) fresh'
        | .className | .nothing => .error (scope.unresolvedVariable name) fresh := by
  have hRhs : ∃ l after, (expr scope value .assignRhs).run fresh = .ok l after := by
    have hLower := operand_run.mp hValue
    rw [expr_eq_bind_serve, run_bind_ok] at hLower
    obtain ⟨l, after, hLower, -⟩ := hLower
    exact ⟨l, after, hLower⟩
  obtain ⟨l, after, hRhs⟩ := hRhs
  refine ⟨l, after, hRhs, ?_⟩
  rw [assign, hTarget]
  dsimp only
  unfold assignName meaning
  cases hLookup : scope.method.lookup? name with
  | some d =>
      dsimp only
      rw [EStateM.run_bind, hRhs]
      rfl
  | none =>
      dsimp only
      rw [visibleField?_eq hKnown hLookup]
      cases scope.symbols.field? name with
      | some d =>
          dsimp only
          rw [EStateM.run_bind, hValue]
          rfl
      | none => cases scope.symbols.isClassReference name <;> rfl

/-- An assignment ends with one to the variable exactly if the name means a variable. -/
theorem writes_variable_iff (hKnown : scope.Known) (hTarget : target.bare = .ident name ty)
    (hValue : (operand scope value).run fresh = .ok (o, valueCode) fresh') {ty : Code.Ty} :
    (∃ code rhs after, (assign scope target value).run fresh =
        .ok (code ++ [.assign (.variable name ty) ty rhs]) after) ↔
      ∃ declared, meaning scope name = .variable declared ∧ ty = .ofSource declared := by
  obtain ⟨l, after, -, hRun⟩ := assign_name_run hKnown hTarget hValue
  rw [hRun]
  cases meaning scope name with
  | «variable» declared => simp [eq_comm]
  | _ => simp

/-- An assignment ends with a write to the field exactly if the name means a field. The field is always
one of the receiver. -/
theorem writes_field_iff (hKnown : scope.Known) (hTarget : target.bare = .ident name ty)
    (hValue : (operand scope value).run fresh = .ok (o, valueCode) fresh') {ty : Code.Ty} :
    (∃ code o after, (assign scope target value).run fresh =
        .ok (code ++ [.putField scope.self name ty o]) after) ↔
      ∃ declared, meaning scope name = .field declared ∧ ty = .ofSource declared := by
  obtain ⟨l, after, -, hRun⟩ := assign_name_run hKnown hTarget hValue
  rw [hRun]
  cases meaning scope name with
  | field declared => simp [eq_comm]
  | _ => simp

end Writing

section Calling

variable {receiver : Expr} {method : String} {arguments : List Expr} {callTy : Source.Ty}
  {l : Lowered}

theorem Lowered.EndsWith.kind_unique {l : Lowered} {code code' : List Instr}
    {kind kind' : Code.CallKind} {target target' : Operand} {method method' : Option String}
    {values values' : List Operand} {ty ty' : Code.Ty}
    (h : l.EndsWith code (.call kind target method values ty))
    (h' : l.EndsWith code' (.call kind' target' method' values' ty')) : kind = kind' := by
  rcases h with rfl | ⟨_, _, rfl⟩ <;> rcases h' with hSame | ⟨_, _, hSame⟩
  · simp_all
  · cases hSame
  · cases hSame
  · simp_all

/-- A receiver that is a name is taken for a class exactly if the name means one, with or without
parentheses around it. -/
theorem staticTarget?_name (scope : Scope) (hReceiver : receiver.bare = .ident name ty) :
    scope.staticTarget? receiver = if meaning scope name = .className then some name else none := by
  rw [staticTarget?_eq, Source.receiverClass?, hReceiver]

/-- A call on a name is one of the class that the name means, or of the object that is read by it. -/
theorem call_name (hReceiver : receiver.bare = .ident name ty)
    (hCall : asksLength receiver method arguments = false)
    (h : (expr scope (.call receiver method arguments callTy) use).run fresh = .ok l fresh') :
    (meaning scope name = .className ∧ ∃ code values,
      l.EndsWith code
        (.call .invokeStatic (.classRef name) (some method) values (.ofSource callTy))) ∨
    (meaning scope name ≠ .className ∧ ∃ target readCode fresh₁ code values,
      (operand scope receiver).run fresh = .ok (target, readCode) fresh₁ ∧
      l.EndsWith (readCode ++ code)
        (.call .invokeVirtual target (some method) values (.ofSource callTy))) := by
  obtain ⟨kind, target, readCode, fresh₁, os, argumentCode, fresh₂, values, collectCode, fresh₃,
    hTarget, -, -, hFinish⟩ := (expr_call_run hCall).mp h
  have hEnds := endsWith_finish ((finishCall_run rfl).mp hFinish).2
  rw [List.append_assoc] at hEnds
  have hStatic := staticTarget?_name scope hReceiver
  rcases callTarget_run.mp hTarget with ⟨className, hClass, rfl, rfl, -, -⟩ | ⟨hNone, rfl, hRead⟩
  · rw [hClass, eq_comm, Option.ite_none_right_eq_some] at hStatic
    obtain ⟨hMeaning, hName⟩ := hStatic
    obtain rfl := Option.some.inj hName
    exact .inl ⟨hMeaning, _, _, hEnds⟩
  · rw [hNone, eq_comm, ite_eq_right_iff] at hStatic
    exact .inr ⟨fun hMeaning => (nomatch hStatic hMeaning), target, readCode, fresh₁, _, values,
      hRead, hEnds⟩

/-- A call whose receiver and arguments can be lowered can be lowered where its value is not used. -/
theorem call_total {o : Operand} {readCode argumentCode : List Instr} {os : List Operand}
    {fresh₁ fresh₂ : Fresh} (hKnown : scope.Known) (hReceiver : receiver.bare = .ident name ty)
    (hCall : asksLength receiver method arguments = false)
    (hRead : (operand scope receiver).run fresh = .ok (o, readCode) fresh₁)
    (hArguments : (operands scope arguments).run fresh₁ = .ok (os, argumentCode) fresh₂)
    (hLimit : os.length < Source.arrayLimit) :
    ∃ l fresh', (expr scope (.call receiver method arguments callTy) .discard).run fresh =
      .ok l fresh' := by
  have hTarget : ∃ kind target code, (callTarget scope receiver (operand scope receiver)).run fresh =
      .ok (kind, target, code) fresh₁ := by
    have hStatic := staticTarget?_name scope hReceiver
    by_cases hMeaning : meaning scope name = .className
    · rw [operand_run, (reads_class_iff hKnown hReceiver).mpr hMeaning] at hRead
      obtain ⟨-, rfl⟩ := EStateM.Result.ok.inj hRead
      rw [if_pos hMeaning] at hStatic
      exact ⟨_, _, _, callTarget_run.mpr (.inl ⟨name, hStatic, rfl, rfl, rfl, rfl⟩)⟩
    · rw [if_neg hMeaning] at hStatic
      exact ⟨_, _, _, callTarget_run.mpr (.inr ⟨hStatic, rfl, hRead⟩)⟩
  obtain ⟨kind, target, code, hTarget⟩ := hTarget
  have hCollect : ∃ values collectCode fresh₃,
      (collect scope (scope.fixedArity? target receiver.ty method) arguments os).run fresh₂ =
        .ok (values, collectCode) fresh₃ := by
    refine collect_total scope arguments (fun n _ => ?_) fresh₂
    rw [List.length_drop]
    omega
  obtain ⟨values, collectCode, fresh₃, hCollect⟩ := hCollect
  obtain ⟨l, fresh', hFinish⟩ := finish_total scope (Use.discard = .assignRhs ∨ Use.discard = .discard)
    (.call kind target (some method) values (.ofSource callTy)) (code ++ argumentCode ++ collectCode)
    fresh₃
  exact ⟨l, fresh', (expr_call_run hCall).mpr ⟨kind, target, code, fresh₁, os, argumentCode, fresh₂,
    values, collectCode, fresh₃, hTarget, hArguments, hCollect,
    (finishCall_run rfl).mpr ⟨nofun, hFinish⟩⟩⟩

end Calling

/-- Whatever is done with a name, it stands for the same: a variable or a field, of one type, that is
read and assigned to and that a method is called on, or else a class, on which a method is called
statically and to which nothing can be assigned. A name that nothing declares cannot be read. -/
theorem names_agree {target value receiver : Expr} {targetTy receiverTy : Source.Ty} {o : Operand}
    {valueCode : List Instr} {fresh₁ after : Fresh} {method : String} {arguments : List Expr}
    (hKnown : scope.Known) (he : e.bare = .ident name ty)
    (hTarget : target.bare = .ident name targetTy)
    (hReceiver : receiver.bare = .ident name receiverTy)
    (hValue : (operand scope value).run fresh₁ = .ok (o, valueCode) after)
    (hCall : asksLength receiver method arguments = false)
    (use : Use) (callTy : Source.Ty) (fresh fresh₂ : Fresh) :
    (∀ ty, (expr scope e use).run fresh = .ok (.ofOperand (.variable name ty)) fresh ↔
      ∃ code rhs fresh', (assign scope target value).run fresh₁ =
        .ok (code ++ [.assign (.variable name ty) ty rhs]) fresh') ∧
    (∀ ty, (∃ temp fresh', scope.newTemp.run fresh = .ok temp fresh' ∧
        (expr scope e use).run fresh = .ok ⟨.operand (.variable temp ty),
          [.assign (.variable temp ty) ty (.getField scope.self name ty)]⟩ fresh') ↔
      ∃ code rhs fresh', (assign scope target value).run fresh₁ =
        .ok (code ++ [.putField scope.self name ty rhs]) fresh') ∧
    (∀ callUse l fresh',
      (expr scope (.call receiver method arguments callTy) callUse).run fresh₂ = .ok l fresh' →
      ((expr scope e use).run fresh = .ok (.ofOperand (.classRef name)) fresh ↔
        ∃ code values, l.EndsWith code
          (.call .invokeStatic (.classRef name) (some method) values (.ofSource callTy))) ∧
      ((expr scope e use).run fresh ≠ .ok (.ofOperand (.classRef name)) fresh →
        ∃ target readCode fresh₃ code values,
          (operand scope receiver).run fresh₂ = .ok (target, readCode) fresh₃ ∧
          l.EndsWith (readCode ++ code)
            (.call .invokeVirtual target (some method) values (.ofSource callTy)))) ∧
    (∀ target readCode fresh₃ os argumentCode fresh₄,
      (operand scope receiver).run fresh₂ = .ok (target, readCode) fresh₃ →
      (operands scope arguments).run fresh₃ = .ok (os, argumentCode) fresh₄ →
      os.length < Source.arrayLimit →
      ∃ l fresh', (expr scope (.call receiver method arguments callTy) .discard).run fresh₂ =
        .ok l fresh') ∧
    (∀ error fresh', (expr scope e use).run fresh = .error error fresh' ↔
      error = scope.unresolvedVariable name ∧ fresh' = fresh ∧
        name ∉ (scope.method.locals ++ scope.method.parameters ++ scope.symbols.fields).map (·.name) ∧
        name ≠ scope.symbols.className ∧ ∀ path ∈ scope.symbols.imports, lastSegment path ≠ name) ∧
    ((expr scope e use).run fresh = .ok (.ofOperand (.classRef name)) fresh ∨
        (∃ error fresh', (expr scope e use).run fresh = .error error fresh') →
      (assign scope target value).run fresh₁ = .error (scope.unresolvedVariable name) fresh₁) := by
  refine ⟨fun ty => ?_, fun ty => ?_, fun callUse l fresh' hLower => ?_, ?_, fun error fresh' => ?_,
    fun hRead => ?_⟩
  · rw [reads_variable_iff hKnown he, writes_variable_iff hKnown hTarget hValue]
  · rw [writes_field_iff hKnown hTarget hValue]
    constructor
    · rintro ⟨temp, fresh', hTemp, hRead⟩
      exact (reads_field_iff hKnown he hTemp).mp hRead
    · intro hField
      have hTemp := newTemp_run scope fresh
      exact ⟨_, _, hTemp, (reads_field_iff hKnown he hTemp).mpr hField⟩
  · have hClass : (expr scope e use).run fresh = .ok (.ofOperand (.classRef name)) fresh ↔
        meaning scope name = .className := reads_class_iff hKnown he
    rcases call_name hReceiver hCall hLower with
      ⟨hMeaning, code, values, hEnds⟩ | ⟨hMeaning, hVirtual⟩
    · have hRead := hClass.mpr hMeaning
      exact ⟨iff_of_true hRead ⟨code, values, hEnds⟩, fun hOther => (hOther hRead).elim⟩
    · refine ⟨iff_of_false (mt hClass.mp hMeaning) ?_, fun _ => hVirtual⟩
      rintro ⟨code, values, hStatic⟩
      obtain ⟨_, _, _, _, _, -, hEnds⟩ := hVirtual
      cases hStatic.kind_unique hEnds
  · intro target readCode fresh₃ os argumentCode fresh₄ hRead hArguments hLimit
    exact call_total hKnown hReceiver hCall hRead hArguments hLimit
  · rw [reading_fails_iff hKnown he, Source.meaning_nothing_iff]
  · obtain ⟨l, _, -, hRun⟩ := assign_name_run hKnown hTarget hValue
    rw [hRun]
    rcases hRead with hClass | ⟨error, fresh', hFails⟩
    · rw [(reads_class_iff hKnown he).mp hClass]
    · rw [((reading_fails_iff hKnown he).mp hFails).2.2]

namespace Tally

/-- The scope of `int count()` in a class with a field that is called like an imported class. -/
def inCount : Scope where
  symbols := { Source.SymbolTable.empty "Tally" with
    imports := ["lib.Total"], fields := [.plain "Total" .int], methods := [signature] }
  method := signature
where
  signature : Source.Signature := ⟨"count", .int, [], [], false, true⟩

/-- `((Total))`. -/
def total : Expr := .paren (.paren (.ident "Total" .int))

end Tally

/-- The field hides the class: it is read, it is assigned to, and calls go to the object in it. -/
theorem tally_names_agree :
    (∃ temp fresh, Tally.inCount.newTemp.run .start = .ok temp fresh ∧
      (expr Tally.inCount Tally.total .value).run .start = .ok ⟨.operand (.variable temp .int32),
        [.assign (.variable temp .int32) .int32
          (.getField Tally.inCount.self "Total" .int32)]⟩ fresh) ∧
    (∃ code rhs fresh, (assign Tally.inCount Tally.total (.intLiteral 1)).run .start =
      .ok (code ++ [.putField Tally.inCount.self "Total" .int32 rhs]) fresh) ∧
    ∃ l fresh, (expr Tally.inCount (.call Tally.total "add" [] .void) .discard).run .start =
      .ok l fresh ∧ ∃ target code values, l.EndsWith code
        (.call .invokeVirtual target (some "add") values (.ofSource .void)) := by
  have hKnown : Tally.inCount.Known := by rfl
  have hBare : Tally.total.bare = .ident "Total" .int := by rfl
  have hValue : (operand Tally.inCount (.intLiteral 1)).run .start = .ok (.int 1, []) .start := by rfl
  have hCall : asksLength Tally.total "add" [] = false := by rfl
  obtain ⟨-, hField, hCalls, hLowers, -⟩ :=
    names_agree hKnown hBare hBare hBare hValue hCall .value .void .start .start
  have hRead : (expr Tally.inCount Tally.total .value).run .start =
      .ok ⟨.operand (.variable "tmp0" .int32), [.assign (.variable "tmp0" .int32) .int32
        (.getField Tally.inCount.self "Total" .int32)]⟩ ⟨1, 0⟩ := by with_unfolding_all rfl
  have hReads : ∃ temp fresh, Tally.inCount.newTemp.run .start = .ok temp fresh ∧
      (expr Tally.inCount Tally.total .value).run .start = .ok ⟨.operand (.variable temp .int32),
        [.assign (.variable temp .int32) .int32
          (.getField Tally.inCount.self "Total" .int32)]⟩ fresh :=
    ⟨"tmp0", ⟨1, 0⟩, by with_unfolding_all rfl, hRead⟩
  obtain ⟨l, fresh, hLower⟩ := hLowers _ _ _ [] [] _ (operand_run.mpr hRead) rfl (by decide)
  have hObject : (expr Tally.inCount Tally.total .value).run .start ≠
      .ok (.ofOperand (.classRef "Total")) .start := by
    rw [hRead]
    nofun
  obtain ⟨target, readCode, -, code, values, -, hEnds⟩ := (hCalls _ l fresh hLower).2 hObject
  exact ⟨hReads, (hField .int32).mp hReads, l, fresh, hLower, target, readCode ++ code, values, hEnds⟩

end MiniJava.Lowering
