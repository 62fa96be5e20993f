import MiniJava.Proofs.Json.Checks
import MiniJava.Proofs.Json.Writing
import MiniJava.Proofs.Source.Induction
import MiniJava.Proofs.Source.Reading
import MiniJava.Source.Writer

/-! A program is read back from what is written for it. -/

namespace MiniJava

namespace Json

variable {α : Type}

theorem mapM_map_of_some {f : Json → Option α} {g : α → Json} {l : List α}
    (h : ∀ a ∈ l, f (g a) = some a) : (l.map g).mapM f = some l :=
  mapM_eq_some.mpr (List.forall₂_map_left_iff.mpr (List.forall₂_same.mpr h))

/-- A list that is written as an array is read back if each of its items is. -/
theorem list?_ofList {f : Json → Option α} {g : α → Json} {l : List α}
    (h : ∀ a ∈ l, f (g a) = some a) : (ofList g l).list? f = some l :=
  mapM_map_of_some h

theorem text?_ofString (s : String) : (ofString s).text? = some s := rfl

theorem int?_ofInt (n : Int) : (ofInt n).int? = some n := by
  by_cases hSign : n < 0
  · have hAbs : n.natAbs ≠ 0 := by omega
    simp only [ofInt, int?, Numeral.ofInt, hSign, decide_true, Numeral.int?, if_neg hAbs,
      Option.some.injEq]
    omega
  · simp only [ofInt, int?, Numeral.ofInt, hSign, decide_false, Numeral.int?, Option.some.injEq]
    omega

theorem int32?_ofInt (value : Int32) : (ofInt value.toInt).int32? = some value := by
  rw [int32?, int?_ofInt, Option.bind_some, if_pos ⟨value.minValue_le_toInt, value.toInt_le⟩,
    Int32.ofInt_toInt]

end Json

namespace Source

open Json (Field Kind kindOf? record?_ofFields variant? variant?_ofFields)

/-- What is written for a variant reads back as its kind and its values, if the kind is known by its
name. -/
theorem variant?_variant {kinds : List Kind} {kind : String} {fields : List Field}
    {members : List (String × Json)} (hKind : kinds.find? (·.name = kind) = some ⟨kind, fields⟩)
    (hNames : fields.map (·.name) = members.map (·.1))
    (hNodup : ("kind" :: members.map (·.1)).Nodup) :
    variant? kinds (variant kind members) = some (kind, members.map fun m => some m.2) :=
  variant?_ofFields (show kindOf? kinds (.ofString kind) = some ⟨kind, fields⟩ from hKind) hNames hNodup

/-- Every type is read back, from its name and from whether it is an array. Nothing is asked of the
name. -/
theorem Ty.ofJson?_toJson (ty : Ty) : Ty.ofJson? ty.toJson = some ty := by
  rw [Ty.ofJson?, Ty.toJson, record?_ofFields rfl (by simp)]
  rfl

/-- Every declaration is read back, with the mark that it collects arguments. -/
theorem Declaration.ofJson?_toJson (d : Declaration) : Declaration.ofJson? d.toJson = some d := by
  rw [Declaration.ofJson?, Declaration.toJson, record?_ofFields rfl (by simp)]
  simp [Ty.ofJson?_toJson, Json.text?_ofString, Json.bool?]

theorem BinaryOp.ofJson?_text (op : BinaryOp) : BinaryOp.ofJson? (.ofString op.text) = some op := by
  cases op <;> rfl

theorem Expr.toJsons_eq (es : List Expr) : Expr.toJsons es = es.map Expr.toJson := by
  induction es with
  | nil => rfl
  | cons e rest ih => rw [Expr.toJsons, ih, List.map_cons]

/-- What is written for an expression is read as the expression of its kind. -/
theorem Expr.ofJson?_variant {kind : String} {fields : List Field} {members : List (String × Json)}
    (hKind : Expr.kinds.find? (·.name = kind) = some ⟨kind, fields⟩)
    (hNames : fields.map (·.name) = members.map (·.1))
    (hNodup : ("kind" :: members.map (·.1)).Nodup) :
    Expr.ofJson? (variant kind members) = ofParts? kind (members.map fun m => some m.2) := by
  rw [Expr.ofJson?_eq, variant?_variant hKind hNames hNodup, Option.bind_some]

theorem Expr.ofJson?_toJson (e : Expr) : Expr.ofJson? e.toJson = some e := by
  induction e with
  | intLiteral value =>
      rw [toJson, ofJson?_variant rfl rfl (by simp)]
      exact ofParts?_intLiteral.mpr ⟨value, Json.int32?_ofInt value, rfl⟩
  | boolLiteral value =>
      rw [toJson, ofJson?_variant rfl rfl (by simp)]
      exact ofParts?_boolLiteral.mpr ⟨value, rfl, rfl⟩
  | ident name ty =>
      rw [toJson, ofJson?_variant rfl rfl (by simp)]
      exact ofParts?_ident.mpr ⟨name, rfl, ty, ty.ofJson?_toJson, rfl⟩
  | self ty =>
      rw [toJson, ofJson?_variant rfl rfl (by simp)]
      exact ofParts?_self.mpr ⟨ty, ty.ofJson?_toJson, rfl⟩
  | index base place ty hBase hPlace =>
      rw [toJson, ofJson?_variant rfl rfl (by simp)]
      exact ofParts?_index.mpr ⟨base, hBase, place, hPlace, ty, ty.ofJson?_toJson, rfl⟩
  | paren inner hInner =>
      rw [toJson, ofJson?_variant rfl rfl (by simp)]
      exact ofParts?_paren.mpr ⟨inner, hInner, rfl⟩
  | not operand hOperand =>
      rw [toJson, ofJson?_variant rfl rfl (by simp)]
      exact ofParts?_not.mpr ⟨operand, hOperand, rfl⟩
  | newArray size hSize =>
      rw [toJson, ofJson?_variant rfl rfl (by simp)]
      exact ofParts?_newArray.mpr ⟨size, hSize, rfl⟩
  | newObject className =>
      rw [toJson, ofJson?_variant rfl rfl (by simp)]
      exact ofParts?_newObject.mpr ⟨className, rfl, rfl⟩
  | arrayLiteral elements hElements =>
      have hItems : (Json.array (toJsons elements)).list? ofJson? = some elements := by
        rw [toJsons_eq]
        exact Json.mapM_map_of_some hElements
      rw [toJson, ofJson?_variant rfl rfl (by simp)]
      exact ofParts?_arrayLiteral.mpr ⟨elements, hItems, rfl⟩
  | binary op left right ty hLeft hRight =>
      rw [toJson, ofJson?_variant rfl rfl (by simp)]
      exact ofParts?_binary.mpr
        ⟨op, op.ofJson?_text, left, hLeft, right, hRight, ty, ty.ofJson?_toJson, rfl⟩
  | call receiver method arguments ty hReceiver hArguments =>
      have hItems : (Json.array (toJsons arguments)).list? ofJson? = some arguments := by
        rw [toJsons_eq]
        exact Json.mapM_map_of_some hArguments
      rw [toJson, ofJson?_variant rfl rfl (by simp)]
      exact ofParts?_call.mpr
        ⟨receiver, hReceiver, method, rfl, arguments, hItems, ty, ty.ofJson?_toJson, rfl⟩

theorem Stmt.toJsons_eq (ss : List Stmt) : Stmt.toJsons ss = ss.map Stmt.toJson := by
  induction ss with
  | nil => rfl
  | cons s rest ih => rw [Stmt.toJsons, ih, List.map_cons]

theorem Stmt.ofJson?_variant {kind : String} {fields : List Field} {members : List (String × Json)}
    (hKind : Stmt.kinds.find? (·.name = kind) = some ⟨kind, fields⟩)
    (hNames : fields.map (·.name) = members.map (·.1))
    (hNodup : ("kind" :: members.map (·.1)).Nodup) :
    Stmt.ofJson? (variant kind members) = ofParts? kind (members.map fun m => some m.2) := by
  rw [Stmt.ofJson?_eq, variant?_variant hKind hNames hNodup, Option.bind_some]

/-- An expression that may be missing is read back, as missing from `null`. -/
theorem Expr.nullable?_toJson (value : Option Expr) :
    (Json.ofOption Expr.toJson value).nullable? Expr.ofJson? = some value := by
  cases value with
  | none => rfl
  | some e =>
      have hNull : e.toJson ≠ .null := by cases e <;> nofun
      rw [Json.ofOption, Json.nullable?_of_ne_null hNull, Expr.ofJson?_toJson]
      rfl

theorem Stmt.ofJson?_toJson (s : Stmt) : Stmt.ofJson? s.toJson = some s := by
  induction s with
  | block statements hStatements =>
      have hItems : (Json.array (toJsons statements)).list? ofJson? = some statements := by
        rw [toJsons_eq]
        exact Json.mapM_map_of_some hStatements
      rw [toJson, ofJson?_variant rfl rfl (by simp)]
      exact ofParts?_block.mpr ⟨statements, hItems, rfl⟩
  | cond condition thenBranch elseBranch hThen hElse =>
      have hOptional : (optionalToJson elseBranch).nullable? ofJson? = some elseBranch := by
        cases elseBranch with
        | none => rfl
        | some s =>
            have hNull : s.toJson ≠ .null := by cases s <;> nofun
            rw [optionalToJson, Json.nullable?_of_ne_null hNull, hElse s rfl]
            rfl
      rw [toJson, ofJson?_variant rfl rfl (by simp)]
      exact ofParts?_cond.mpr
        ⟨condition, condition.ofJson?_toJson, thenBranch, hThen, elseBranch, hOptional, rfl⟩
  | loop condition body hBody =>
      rw [toJson, ofJson?_variant rfl rfl (by simp)]
      exact ofParts?_loop.mpr ⟨condition, condition.ofJson?_toJson, body, hBody, rfl⟩
  | assign target value =>
      rw [toJson, ofJson?_variant rfl rfl (by simp)]
      exact ofParts?_assign.mpr ⟨target, target.ofJson?_toJson, value, value.ofJson?_toJson, rfl⟩
  | ret value =>
      rw [toJson, ofJson?_variant rfl rfl (by simp)]
      exact ofParts?_ret.mpr ⟨value, Expr.nullable?_toJson value, rfl⟩
  | eval e =>
      rw [toJson, ofJson?_variant rfl rfl (by simp)]
      exact ofParts?_eval.mpr ⟨e, e.ofJson?_toJson, rfl⟩

theorem Ty.legible_toJson (ty : Ty) : ty.toJson.legible = true := by
  simp [toJson, Json.legible_ofFields, Json.legible, Json.ofString, Json.Str.text?]

theorem legible_variant {kind : String} {fields : List (String × Json)}
    (h : ∀ f ∈ fields, f.2.legible = true) : (variant kind fields).legible = true :=
  Json.legible_ofFields.mpr (List.forall_mem_cons.mpr ⟨rfl, h⟩)

theorem legible_ofString (s : String) : (Json.ofString s).legible = true := rfl

theorem legible_int32 (value : Int32) : (Json.ofInt value.toInt).legible = true := by
  have hLow := value.le_toInt
  have hHigh := value.toInt_lt
  have hAbs : value.toInt.natAbs < 2 ^ 32 := by omega
  exact Json.fitsDouble_ofInt (hAbs.trans_le (by decide))

/-- What is written for an expression can be shown, whatever its names are, since every string of the
program is a text. -/
theorem Expr.legible_toJson (e : Expr) : e.toJson.legible = true := by
  induction e with
  | intLiteral value =>
      exact legible_variant (by simp [legible_int32])
  | boolLiteral value => rfl
  | ident name ty => exact legible_variant (by simp [legible_ofString, Ty.legible_toJson])
  | self ty => exact legible_variant (by simp [Ty.legible_toJson])
  | index base place ty hBase hPlace =>
      exact legible_variant (by simp [hBase, hPlace, Ty.legible_toJson])
  | paren inner hInner => exact legible_variant (by simp [hInner])
  | not operand hOperand => exact legible_variant (by simp [hOperand])
  | newArray size hSize => exact legible_variant (by simp [hSize])
  | newObject className => exact legible_variant (by simp [legible_ofString])
  | arrayLiteral elements hElements =>
      refine legible_variant (List.forall_mem_singleton.mpr (Json.legible_array.mpr ?_))
      rw [toJsons_eq]
      exact List.forall_mem_map.mpr hElements
  | binary op left right ty hLeft hRight =>
      exact legible_variant (by simp [legible_ofString, hLeft, hRight, Ty.legible_toJson])
  | call receiver method arguments ty hReceiver hArguments =>
      have hItems : (Json.array (toJsons arguments)).legible = true := by
        rw [toJsons_eq]
        exact Json.legible_array.mpr (List.forall_mem_map.mpr hArguments)
      exact legible_variant (by simp [legible_ofString, hReceiver, hItems, Ty.legible_toJson])

theorem Stmt.legible_toJson (s : Stmt) : s.toJson.legible = true := by
  induction s with
  | block statements hStatements =>
      refine legible_variant (List.forall_mem_singleton.mpr (Json.legible_array.mpr ?_))
      rw [toJsons_eq]
      exact List.forall_mem_map.mpr hStatements
  | cond condition thenBranch elseBranch hThen hElse =>
      have hOptional : (optionalToJson elseBranch).legible = true := by
        cases elseBranch with
        | none => rfl
        | some s => exact hElse s rfl
      exact legible_variant (by simp [condition.legible_toJson, hThen, hOptional])
  | loop condition body hBody =>
      exact legible_variant (by simp [condition.legible_toJson, hBody])
  | assign target value =>
      exact legible_variant (by simp [target.legible_toJson, value.legible_toJson])
  | ret value =>
      cases value with
      | none => rfl
      | some e => exact legible_variant (List.forall_mem_singleton.mpr e.legible_toJson)
  | eval e => exact legible_variant (by simp [e.legible_toJson])

/-- A statement of a method body is read back if it nests no deeper than is allowed there. -/
theorem Stmt.ofBody?_toJson {s : Stmt}
    (h : s.toJson.nestsWithin (nestingLimit - nestingAround) = true) :
    ofBody? s.toJson = some s := by
  have hKind : Json.namesKind s.toJson = true := by cases s <;> rfl
  rw [ofBody?, h, s.legible_toJson, hKind]
  exact ofJson?_toJson s

theorem MethodDecl.ofJson?_toJson {m : MethodDecl}
    (h : ∀ s ∈ m.body, s.toJson.nestsWithin (Stmt.nestingLimit - Stmt.nestingAround) = true) :
    MethodDecl.ofJson? m.toJson = some m := by
  have hBody : (Json.array (Stmt.toJsons m.body)).list? Stmt.ofBody? = some m.body := by
    rw [Stmt.toJsons_eq]
    exact Json.mapM_map_of_some fun s hs => Stmt.ofBody?_toJson (h s hs)
  have hDeclarations (ds : List Declaration) :
      (Json.ofList Declaration.toJson ds).list? Declaration.ofJson? = some ds :=
    Json.list?_ofList fun d _ => d.ofJson?_toJson
  rw [ofJson?, toJson, record?_ofFields rfl (by simp)]
  simp [Json.text?_ofString, Json.bool?, Ty.ofJson?_toJson, hDeclarations, hBody]

theorem ClassDecl.ofJson?_toJson {c : ClassDecl}
    (h : ∀ m ∈ c.methods, MethodDecl.ofJson? m.toJson = some m) :
    ClassDecl.ofJson? c.toJson = some c := by
  have hSuper : (Json.ofOption Json.ofString c.superClass).nullable? Json.text? =
      some c.superClass := by
    cases c.superClass <;> rfl
  have hFields : (Json.ofList Declaration.toJson c.fields).list? Declaration.ofJson? =
      some c.fields := Json.list?_ofList fun d _ => d.ofJson?_toJson
  rw [ofJson?, toJson, record?_ofFields rfl (by simp)]
  simp [Json.text?_ofString, hSuper, hFields, Json.list?_ofList h]

namespace Program

/-- A program is read from its value, if the value does not nest too deep. Only its statements can make
it do so. -/
theorem ofJson?_toJson {p : Program} (h : p.toJson.nestsWithin Stmt.nestingLimit = true) :
    ofJson? p.toJson = some p := by
  have hBodies : ∀ m ∈ p.decl.methods, ∀ s ∈ m.body,
      s.toJson.nestsWithin (Stmt.nestingLimit - Stmt.nestingAround) = true := by
    have hClass := Json.nestsWithin_ofFields.mp h ("class", p.decl.toJson) (by simp)
    have hMethods := Json.nestsWithin_ofFields.mp hClass
      ("methods", .ofList MethodDecl.toJson p.decl.methods) (by simp)
    intro m hm s hs
    have hMethod := Json.nestsWithin_ofList.mp hMethods m hm
    have hBody := Json.nestsWithin_ofFields.mp hMethod ("body", .array (Stmt.toJsons m.body)) (by simp)
    rw [Stmt.toJsons_eq] at hBody
    exact Json.nestsWithin_array.mp hBody s.toJson (List.mem_map_of_mem hs)
  have hImports : (Json.ofList (Json.ofList Json.ofString) p.imports).list? (Json.list? Json.text?) =
      some p.imports := Json.list?_ofList fun path _ => Json.list?_ofList fun s _ => rfl
  have hClass := ClassDecl.ofJson?_toJson fun m hm => MethodDecl.ofJson?_toJson (hBodies m hm)
  rw [ofJson?, toJson, record?_ofFields rfl (by simp)]
  simp [hImports, hClass]

/-- A program is read from every text of its value, with whatever blanks and escapes it is written. -/
theorem parse_of_isText {p : Program} {s : String}
    (h : p.toJson.nestsWithin Stmt.nestingLimit = true) (hText : p.toJson.IsText s) :
    parse s = .ok p :=
  parse_eq_ok.mpr ⟨p.toJson, hText, ofJson?_toJson h⟩

/-- A program that nests within the limit is read back from what is written for it, on one line or on many,
and from every other text of the same value. So a text that is read is read again as the same program once
its missing parts are written out. -/
theorem read_back :
    (∀ p : Program, p.toJson.nestsWithin Stmt.nestingLimit = true →
      parse p.toJson.compact = .ok p ∧ parse p.toJson.pretty = .ok p ∧
        ∀ s, p.toJson.IsText s → parse s = .ok p) ∧
    ∀ (source : String) (p : Program), parse source = .ok p →
      p.toJson.nestsWithin Stmt.nestingLimit = true →
        parse p.toJson.compact = parse source ∧ parse p.toJson.pretty = parse source := by
  have hTexts {p : Program} (h : p.toJson.nestsWithin Stmt.nestingLimit = true) :
      parse p.toJson.compact = .ok p ∧ parse p.toJson.pretty = .ok p :=
    ⟨parse_of_isText h (Json.isText_compact _), parse_of_isText h (Json.isText_pretty _)⟩
  refine ⟨fun p h => ⟨(hTexts h).1, (hTexts h).2, fun s => parse_of_isText h⟩, ?_⟩
  intro source p hSource h
  rw [hSource]
  exact hTexts h

namespace Sign

/-- `int sign(int n) { if (n < 0) return -1; return n; }`, with a name beyond ASCII. -/
def method : MethodDecl where
  name := "sign_π"
  isPublic := true
  isStatic := false
  returnType := .int
  parameters := [.plain "n" .int]
  locals := []
  body := [
    .cond (.binary .less n (.intLiteral 0) .boolean) (.ret (some (.intLiteral (-1)))) none,
    .ret (some n)]
where
  n : Expr := .ident "n" .int

/-- A class with this method alone. -/
def program : Program := ⟨[], ⟨"Sign", none, [], [method]⟩⟩

/-- The class with no more members than it needs. -/
def short : Json :=
  .ofFields [("class", .ofFields [("methods", .array [.ofFields [
    ("name", .ofString method.name), ("return_type", method.returnType.toJson),
    ("parameters", .ofList Declaration.toJson method.parameters),
    ("body", .array (Stmt.toJsons method.body))]]), ("name", .ofString "Sign")])]

end Sign

/-- A class read from a text that leaves parts out, and written out in full. -/
theorem sign_read_back :
    Sign.program.toJson.nestsWithin Stmt.nestingLimit = true ∧
      parse Sign.short.compact = .ok Sign.program ∧
        parse Sign.program.toJson.pretty = .ok Sign.program ∧
          parse Sign.program.toJson.compact = parse Sign.short.compact := by
  have hNests : Sign.program.toJson.nestsWithin Stmt.nestingLimit = true := by decide
  have hShort : parse Sign.short.compact = .ok Sign.program :=
    parse_eq_ok.mpr ⟨Sign.short, Json.isText_compact _, rfl⟩
  exact ⟨hNests, hShort, (read_back.1 _ hNests).2.1, (read_back.2 _ _ hShort hNests).1⟩

end Program

end Source

end MiniJava
