import MiniJava.Proofs.Source.Change
import MiniJava.Proofs.Source.Reading

/-! What a change has to keep so that a value is read as before: for an object the fields that it gives,
for a list its items. -/

namespace MiniJava

namespace Source

open Json (Field Kind Str found? kindField kindOf? record? variant?)

variable {α : Type} {part : Part} {j j' : Json}

/-- What the first value reads as, the second reads as too. Nothing is said of a value that cannot be
read. -/
def Preserved (f : Json → Option α) (j j' : Json) : Prop := ∀ a, f j = some a → f j' = some a

namespace Part

/-- The second value reads as the first, where they stand for the part. A plain value must be the same,
and what is passed over may be anything. -/
def Keeps : Part → Json → Json → Prop
  | .leaf, j, j' => j.isPlain = true → j' = j
  | .ignored, _, _ => True
  | .operator, j, j' => Preserved BinaryOp.ofJson? j j'
  | .inOperator, j, j' => j = .object [] → j' = .object []
  | .ty, j, j' => Preserved Ty.ofJson? j j'
  | .declaration, j, j' => Preserved Declaration.ofJson? j j'
  | .expr, j, j' => Preserved Expr.ofJson? j j'
  | .optionalExpr, j, j' => Preserved (Json.nullable? Expr.ofJson?) j j'
  | .stmt, j, j' => Preserved Stmt.ofJson? j j'
  | .optionalStmt, j, j' => Preserved (Json.nullable? Stmt.ofJson?) j j'
  | .bodyStmt, j, j' => Preserved Stmt.ofBody? j j'
  | .method, j, j' => Preserved MethodDecl.ofJson? j j'
  | .decl, j, j' => Preserved ClassDecl.ofJson? j j'
  | .program, j, j' => Preserved Program.ofJson? j j'
  | .list p, j, j' =>
      ∀ items, j = .array items → ∃ items', j' = .array items' ∧ List.Forall₂ p.Keeps items items'

theorem keeps_refl (part : Part) (j : Json) : part.Keeps j j := by
  induction part generalizing j with
  | leaf => exact fun _ => rfl
  | ignored => trivial
  | inOperator => exact id
  | list p ih => exact fun items hItems => ⟨items, hItems, List.forall₂_same.mpr fun j _ => ih j⟩
  | _ => exact fun _ h => h

end Part

/-- What reads plain values only takes no notice of changes within arrays and objects, which are none. -/
theorem preserved_of_leaf {f : Json → Option α} (hf : ∀ j : Json, j.isPlain = false → f j = none)
    (h : Part.leaf.Keeps j j') : Preserved f j j' := by
  intro a hRead
  cases hPlain : j.isPlain with
  | true => rwa [h hPlain]
  | false =>
      rw [hf j hPlain] at hRead
      cases hRead

theorem preserved_text (h : Part.leaf.Keeps j j') : Preserved Json.text? j j' :=
  preserved_of_leaf (fun j hj => by cases j <;> first | rfl | cases hj) h

theorem preserved_bool (h : Part.leaf.Keeps j j') : Preserved Json.bool? j j' :=
  preserved_of_leaf (fun j hj => by cases j <;> first | rfl | cases hj) h

theorem preserved_int32 (h : Part.leaf.Keeps j j') : Preserved Json.int32? j j' :=
  preserved_of_leaf (fun j hj => by cases j <;> first | rfl | cases hj) h

theorem preserved_optionalText (h : Part.leaf.Keeps j j') :
    Preserved (Json.nullable? Json.text?) j j' :=
  preserved_of_leaf (fun j hj => by cases j <;> first | rfl | cases hj) h

theorem preserved_list {p : Part} {f : Json → Option α} (h : (Part.list p).Keeps j j')
    (hf : ∀ j j', p.Keeps j j' → Preserved f j j') : Preserved (Json.list? f) j j' := by
  intro as hRead
  cases j with
  | array items =>
      obtain ⟨items', rfl, hItems⟩ := h items rfl
      clear h
      rw [Json.list?, Json.mapM_eq_some] at hRead ⊢
      induction hItems generalizing as with
      | nil => exact hRead
      | cons hHead _ ih =>
          cases hRead with
          | cons hFirst hRest => exact .cons (hf _ _ hHead _ hFirst) (ih _ hRest)
  | _ => cases hRead

theorem preserved_declarations (h : (Part.list .declaration).Keeps j j') :
    Preserved (Json.list? Declaration.ofJson?) j j' :=
  preserved_list h fun _ _ h => h

/-- A value that may be missing, where one is read that is there. Null itself reads as nothing there. -/
theorem preserved_of_nullable {f : Json → Option α} (hNull : f .null = none)
    (h : Preserved (Json.nullable? f) j j') : Preserved f j j' := by
  intro a hRead
  have hj : j ≠ .null := by
    rintro rfl
    rw [hNull] at hRead
    cases hRead
  have hOptional := h (some a) (by rw [Json.nullable?_of_ne_null hj, hRead]; rfl)
  have hj' : j' ≠ .null := by
    rintro rfl
    cases hOptional
  rw [Json.nullable?_of_ne_null hj'] at hOptional
  simpa using hOptional

theorem preserved_nullable {f : Json → Option α} (hj : j ≠ .null) (hj' : j' ≠ .null)
    (h : Preserved f j j') : Preserved (Json.nullable? f) j j' := by
  intro a? hRead
  rw [Json.nullable?_of_ne_null hj] at hRead
  obtain ⟨a, ha, rfl⟩ := Option.map_eq_some_iff.mp hRead
  rw [Json.nullable?_of_ne_null hj', h a ha]
  rfl

variable {partOf : String → Part}

/-- The values of a field, with its default where it is missing. So a default that is written out counts
as the field left out. -/
def FieldKept (partOf : String → Part) (field : Field) (value value' : Option Json) : Prop :=
  if field.presence = .required then
    ∃ v v', value = some v ∧ value' = some v' ∧ (partOf field.name).Keeps v v'
  else (partOf field.name).Keeps (value.getD (default field)) (value'.getD (default field))

/-- The values of several fields, one by one and in the order of the fields. -/
inductive FieldsKept (partOf : String → Part) :
    List Field → List (Option Json) → List (Option Json) → Prop
  | nil : FieldsKept partOf [] [] []
  | cons {field : Field} {fields : List Field} {value value' : Option Json}
      {values values' : List (Option Json)} (h : FieldKept partOf field value value')
      (hRest : FieldsKept partOf fields values values') :
      FieldsKept partOf (field :: fields) (value :: values) (value' :: values')

/-- The fields of a record: if the first value has them, so does the second, with values that are
kept. -/
def RecordKept (part : Part) (j j' : Json) : Prop :=
  ∀ values, record? part.recordFields j = some values →
    ∃ values', record? part.recordFields j' = some values' ∧
      FieldsKept part.field part.recordFields values values'

/-- The kind and the fields of a variant. The kind must be the same, though it may be given in another
way. -/
def VariantKept (part : Part) (j j' : Json) : Prop :=
  ∀ name values, variant? part.kinds j = some (name, values) →
    ∃ kind ∈ part.kinds, kind.name = name ∧
      ∃ values', variant? part.kinds j' = some (name, values') ∧
        FieldsKept part.field kind.fields values values'

theorem preserved_record {f : List (Option Json) → Option α} (h : RecordKept part j j')
    (hFields : ∀ values values', FieldsKept part.field part.recordFields values values' →
      ∀ a, f values = some a → f values' = some a) :
    Preserved (fun j => (record? part.recordFields j).bind f) j j' := by
  intro a hRead
  obtain ⟨values, hValues, hRest⟩ := Option.bind_eq_some_iff.mp hRead
  obtain ⟨values', hValues', hKept⟩ := h values hValues
  exact Option.bind_eq_some_iff.mpr ⟨values', hValues', hFields values values' hKept a hRest⟩

theorem preserved_ty (h : RecordKept .ty j j') : Preserved Ty.ofJson? j j' := by
  refine preserved_record h fun values values' hKept ty hRead => ?_
  rcases hKept with _ | ⟨⟨name, name', rfl, rfl, hName⟩, _ | ⟨⟨isArray, isArray', rfl, rfl, hArray⟩, _ | _⟩⟩
  simp only [Option.bind_eq_bind, Option.bind_eq_some_iff, Option.pure_def, Option.some.injEq] at hRead ⊢
  obtain ⟨n, hn, a, ha, rfl⟩ := hRead
  exact ⟨n, preserved_text hName n hn, a, preserved_bool hArray a ha, rfl⟩

/-- A declaration is read from its name, its type and whether it collects arguments. -/
theorem preserved_declaration (h : RecordKept .declaration j j') :
    Preserved Declaration.ofJson? j j' := by
  refine preserved_record h fun values values' hKept d hRead => ?_
  rcases hKept with _ | ⟨⟨name, name', rfl, rfl, hName⟩, _ | ⟨⟨ty, ty', rfl, rfl, hTy⟩,
    _ | ⟨hVarargs, _ | _⟩⟩⟩
  rename_i isVarargs isVarargs'
  have hFlag : Part.leaf.Keeps (isVarargs.getD (.bool false)) (isVarargs'.getD (.bool false)) := hVarargs
  simp only [Option.bind_eq_bind, Option.bind_eq_some_iff, Option.pure_def, Option.some.injEq] at hRead ⊢
  obtain ⟨n, hn, t, ht, v, hv, rfl⟩ := hRead
  exact ⟨n, preserved_text hName n hn, t, hTy t ht, v, preserved_bool hFlag v hv, rfl⟩

theorem preserved_method (h : RecordKept .method j j') : Preserved MethodDecl.ofJson? j j' := by
  refine preserved_record h fun values values' hKept m hRead => ?_
  rcases hKept with _ | ⟨⟨name, name', rfl, rfl, hName⟩, _ | ⟨hPublic, _ | ⟨hStatic,
    _ | ⟨⟨ty, ty', rfl, rfl, hTy⟩, _ | ⟨⟨params, params', rfl, rfl, hParams⟩, _ | ⟨hLocals,
      _ | ⟨⟨body, body', rfl, rfl, hBody⟩, _ | _⟩⟩⟩⟩⟩⟩⟩
  rename_i isPublic isPublic' isStatic isStatic' locals locals'
  have hPublicFlag : Part.leaf.Keeps (isPublic.getD (.bool true)) (isPublic'.getD (.bool true)) := hPublic
  have hStaticFlag : Part.leaf.Keeps (isStatic.getD (.bool false)) (isStatic'.getD (.bool false)) :=
    hStatic
  have hLocalList : (Part.list .declaration).Keeps (locals.getD (.array [])) (locals'.getD (.array [])) :=
    hLocals
  simp only [Option.bind_eq_bind, Option.bind_eq_some_iff, Option.pure_def, Option.some.injEq] at hRead ⊢
  obtain ⟨n, hn, p, hp, s, hs, t, ht, ps, hps, ls, hls, b, hb, rfl⟩ := hRead
  exact ⟨n, preserved_text hName n hn, p, preserved_bool hPublicFlag p hp,
    s, preserved_bool hStaticFlag s hs, t, hTy t ht, ps, preserved_declarations hParams ps hps,
    ls, preserved_declarations hLocalList ls hls,
    b, preserved_list hBody (f := Stmt.ofBody?) (fun _ _ h => h) b hb, rfl⟩

theorem preserved_decl (h : RecordKept .decl j j') : Preserved ClassDecl.ofJson? j j' := by
  refine preserved_record h fun values values' hKept c hRead => ?_
  rcases hKept with _ | ⟨⟨name, name', rfl, rfl, hName⟩, _ | ⟨hSuper, _ | ⟨hFields,
    _ | ⟨⟨methods, methods', rfl, rfl, hMethods⟩, _ | _⟩⟩⟩⟩
  rename_i super super' fields fields'
  have hSuperName : Part.leaf.Keeps (super.getD .null) (super'.getD .null) := hSuper
  have hFieldList : (Part.list .declaration).Keeps (fields.getD (.array [])) (fields'.getD (.array [])) :=
    hFields
  simp only [Option.bind_eq_bind, Option.bind_eq_some_iff, Option.pure_def, Option.some.injEq] at hRead ⊢
  obtain ⟨n, hn, s, hs, fs, hfs, ms, hms, rfl⟩ := hRead
  exact ⟨n, preserved_text hName n hn, s, preserved_optionalText hSuperName s hs,
    fs, preserved_declarations hFieldList fs hfs,
    ms, preserved_list hMethods (f := MethodDecl.ofJson?) (fun _ _ h => h) ms hms, rfl⟩

theorem preserved_program (h : RecordKept .program j j') : Preserved Program.ofJson? j j' := by
  refine preserved_record h fun values values' hKept p hRead => ?_
  rcases hKept with _ | ⟨hImports, _ | ⟨⟨decl, decl', rfl, rfl, hDecl⟩, _ | _⟩⟩
  rename_i imports imports'
  have hImportList : (Part.list (.list .leaf)).Keeps (imports.getD (.array []))
      (imports'.getD (.array [])) := hImports
  simp only [Option.bind_eq_bind, Option.bind_eq_some_iff, Option.pure_def, Option.some.injEq] at hRead ⊢
  obtain ⟨is, his, c, hc, rfl⟩ := hRead
  exact ⟨is, preserved_list hImportList (fun _ _ h => preserved_list h fun _ _ => preserved_text) is his,
    c, hDecl c hc, rfl⟩

theorem preserved_variant {f : String → List (Option Json) → Option α} (h : VariantKept part j j')
    (hFields : ∀ kind ∈ part.kinds, ∀ values values', FieldsKept part.field kind.fields values values' →
      ∀ a, f kind.name values = some a → f kind.name values' = some a) :
    Preserved (fun j => (variant? part.kinds j).bind fun v => f v.1 v.2) j j' := by
  intro a hRead
  obtain ⟨⟨name, values⟩, hVariant, hRest⟩ := Option.bind_eq_some_iff.mp hRead
  obtain ⟨kind, hKind, rfl, values', hVariant', hKept⟩ := h name values hVariant
  exact Option.bind_eq_some_iff.mpr ⟨_, hVariant', hFields kind hKind values values' hKept a hRest⟩

namespace Expr

theorem preserved_elements (h : (Part.list .expr).Keeps j j') : Preserved (Json.list? ofJson?) j j' :=
  preserved_list h fun _ _ h => h

variable {kind : Kind} {values values' : List (Option Json)}

/-- Each kind of expression is read from its fields, and so it is kept if its fields are. -/
theorem ofParts?_kept (hKind : kind ∈ kinds)
    (hKept : FieldsKept Part.ofExprField kind.fields values values') {e : Expr}
    (h : ofParts? kind.name values = some e) : ofParts? kind.name values' = some e := by
  simp only [kinds, List.mem_cons, List.not_mem_nil, or_false] at hKind
  rcases hKind with rfl | rfl | rfl | rfl | rfl | rfl | rfl | rfl | rfl | rfl | rfl | rfl
  · rcases hKept with _ | ⟨⟨value, value', rfl, rfl, hValue⟩, _ | _⟩
    obtain ⟨n, hn, rfl⟩ := ofParts?_intLiteral.mp h
    exact ofParts?_intLiteral.mpr ⟨n, preserved_int32 hValue n hn, rfl⟩
  · rcases hKept with _ | ⟨⟨value, value', rfl, rfl, hValue⟩, _ | _⟩
    obtain ⟨b, hb, rfl⟩ := ofParts?_boolLiteral.mp h
    exact ofParts?_boolLiteral.mpr ⟨b, preserved_bool hValue b hb, rfl⟩
  · rcases hKept with _ | ⟨⟨name, name', rfl, rfl, hName⟩, _ | ⟨⟨ty, ty', rfl, rfl, hTy⟩, _ | _⟩⟩
    obtain ⟨n, hn, t, ht, rfl⟩ := ofParts?_ident.mp h
    exact ofParts?_ident.mpr ⟨n, preserved_text hName n hn, t, hTy t ht, rfl⟩
  · rcases hKept with _ | ⟨⟨ty, ty', rfl, rfl, hTy⟩, _ | _⟩
    obtain ⟨t, ht, rfl⟩ := ofParts?_self.mp h
    exact ofParts?_self.mpr ⟨t, hTy t ht, rfl⟩
  · rcases hKept with _ | ⟨⟨base, base', rfl, rfl, hBase⟩, _ | ⟨⟨place, place', rfl, rfl, hPlace⟩,
      _ | ⟨⟨ty, ty', rfl, rfl, hTy⟩, _ | _⟩⟩⟩
    obtain ⟨b, hb, p, hp, t, ht, rfl⟩ := ofParts?_index.mp h
    exact ofParts?_index.mpr ⟨b, hBase b hb, p, hPlace p hp, t, hTy t ht, rfl⟩
  · rcases hKept with _ | ⟨⟨inner, inner', rfl, rfl, hInner⟩, _ | _⟩
    obtain ⟨i, hi, rfl⟩ := ofParts?_paren.mp h
    exact ofParts?_paren.mpr ⟨i, hInner i hi, rfl⟩
  · rcases hKept with _ | ⟨⟨operand, operand', rfl, rfl, hOperand⟩, _ | _⟩
    obtain ⟨o, ho, rfl⟩ := ofParts?_not.mp h
    exact ofParts?_not.mpr ⟨o, hOperand o ho, rfl⟩
  · rcases hKept with _ | ⟨⟨size, size', rfl, rfl, hSize⟩, _ | _⟩
    obtain ⟨s, hs, rfl⟩ := ofParts?_newArray.mp h
    exact ofParts?_newArray.mpr ⟨s, hSize s hs, rfl⟩
  · rcases hKept with _ | ⟨⟨className, className', rfl, rfl, hClass⟩, _ | _⟩
    obtain ⟨c, hc, rfl⟩ := ofParts?_newObject.mp h
    exact ofParts?_newObject.mpr ⟨c, preserved_text hClass c hc, rfl⟩
  · rcases hKept with _ | ⟨⟨elements, elements', rfl, rfl, hElements⟩, _ | _⟩
    obtain ⟨es, hes, rfl⟩ := ofParts?_arrayLiteral.mp h
    exact ofParts?_arrayLiteral.mpr ⟨es, preserved_elements hElements es hes, rfl⟩
  · rcases hKept with _ | ⟨⟨op, op', rfl, rfl, hOp⟩, _ | ⟨⟨left, left', rfl, rfl, hLeft⟩,
      _ | ⟨⟨right, right', rfl, rfl, hRight⟩, _ | ⟨⟨ty, ty', rfl, rfl, hTy⟩, _ | _⟩⟩⟩⟩
    obtain ⟨o, ho, l, hl, r, hr, t, ht, rfl⟩ := ofParts?_binary.mp h
    exact ofParts?_binary.mpr ⟨o, hOp o ho, l, hLeft l hl, r, hRight r hr, t, hTy t ht, rfl⟩
  · rcases hKept with _ | ⟨⟨receiver, receiver', rfl, rfl, hReceiver⟩,
      _ | ⟨⟨method, method', rfl, rfl, hMethod⟩, _ | ⟨⟨arguments, arguments', rfl, rfl, hArguments⟩,
        _ | ⟨⟨ty, ty', rfl, rfl, hTy⟩, _ | _⟩⟩⟩⟩
    obtain ⟨r, hr, m, hm, as, has, t, ht, rfl⟩ := ofParts?_call.mp h
    exact ofParts?_call.mpr ⟨r, hReceiver r hr, m, preserved_text hMethod m hm,
      as, preserved_elements hArguments as has, t, hTy t ht, rfl⟩

end Expr

/-- An expression is kept if its kind and its fields are, by the kinds of expressions. -/
theorem preserved_expr (h : VariantKept .expr j j') : Preserved Expr.ofJson? j j' := by
  have hRead := preserved_variant (f := Expr.ofParts?) h
    fun kind hKind _ _ hKept _ => Expr.ofParts?_kept hKind hKept
  rw [funext Expr.ofJson?_eq]
  exact hRead

namespace Stmt

theorem preserved_statements (h : (Part.list .stmt).Keeps j j') : Preserved (Json.list? ofJson?) j j' :=
  preserved_list h fun _ _ h => h

variable {kind : Kind} {values values' : List (Option Json)}

/-- Each kind of statement is read from its fields, and so it is kept if its fields are. -/
theorem ofParts?_kept (hKind : kind ∈ kinds)
    (hKept : FieldsKept Part.ofStmtField kind.fields values values') {s : Stmt}
    (h : ofParts? kind.name values = some s) : ofParts? kind.name values' = some s := by
  simp only [kinds, List.mem_cons, List.not_mem_nil, or_false] at hKind
  rcases hKind with rfl | rfl | rfl | rfl | rfl | rfl
  · rcases hKept with _ | ⟨⟨statements, statements', rfl, rfl, hStatements⟩, _ | _⟩
    obtain ⟨ss, hss, rfl⟩ := ofParts?_block.mp h
    exact ofParts?_block.mpr ⟨ss, preserved_statements hStatements ss hss, rfl⟩
  · rcases hKept with _ | ⟨⟨condition, condition', rfl, rfl, hCondition⟩,
      _ | ⟨⟨thenBranch, thenBranch', rfl, rfl, hThen⟩, _ | ⟨hElse, _ | _⟩⟩⟩
    rename_i elseBranch elseBranch'
    have hOptional : Preserved (Json.nullable? ofJson?) (elseBranch.getD .null) (elseBranch'.getD .null) :=
      hElse
    obtain ⟨c, hc, t, ht, e, he, rfl⟩ := ofParts?_cond.mp h
    exact ofParts?_cond.mpr ⟨c, hCondition c hc, t, hThen t ht, e, hOptional e he, rfl⟩
  · rcases hKept with _ | ⟨⟨condition, condition', rfl, rfl, hCondition⟩,
      _ | ⟨⟨body, body', rfl, rfl, hBody⟩, _ | _⟩⟩
    obtain ⟨c, hc, b, hb, rfl⟩ := ofParts?_loop.mp h
    exact ofParts?_loop.mpr ⟨c, hCondition c hc, b, hBody b hb, rfl⟩
  · rcases hKept with _ | ⟨⟨target, target', rfl, rfl, hTarget⟩, _ | ⟨⟨value, value', rfl, rfl, hValue⟩,
      _ | _⟩⟩
    obtain ⟨t, ht, v, hv, rfl⟩ := ofParts?_assign.mp h
    exact ofParts?_assign.mpr ⟨t, hTarget t ht, v, preserved_of_nullable rfl hValue v hv, rfl⟩
  · rcases hKept with _ | ⟨hValue, _ | _⟩
    rename_i value value'
    have hOptional : Preserved (Json.nullable? Expr.ofJson?) (value.getD .null) (value'.getD .null) := hValue
    obtain ⟨v, hv, rfl⟩ := ofParts?_ret.mp h
    exact ofParts?_ret.mpr ⟨v, hOptional v hv, rfl⟩
  · rcases hKept with _ | ⟨⟨e, e', rfl, rfl, hExpr⟩, _ | _⟩
    obtain ⟨x, hx, rfl⟩ := ofParts?_eval.mp h
    exact ofParts?_eval.mpr ⟨x, hExpr x hx, rfl⟩

end Stmt

/-- A statement is kept if its kind and its fields are, by the kinds of statements. -/
theorem preserved_stmt (h : VariantKept .stmt j j') : Preserved Stmt.ofJson? j j' := by
  have hRead := preserved_variant (f := Stmt.ofParts?) h
    fun kind hKind _ _ hKept _ => Stmt.ofParts?_kept hKind hKept
  rw [funext Stmt.ofJson?_eq]
  exact hRead

end Source

end MiniJava
