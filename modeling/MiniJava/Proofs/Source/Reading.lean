import MiniJava.Proofs.Json.Records
import MiniJava.Proofs.Json.Grammar
import MiniJava.Source.Reader

/-! What a value reads as, from what its parts read as. The readers of expressions and statements build a
result for every part of a value before they know which parts are expressions; the equations here speak
of the value alone. -/

namespace MiniJava

namespace Json

variable {α : Type} (leaf : Json → α) (array : Json → List α → α)
  (object : Json → List (Str × α) → α)

theorem foldItems_eq (items : List Json) :
    foldItems leaf array object items = items.map (foldParts leaf array object) := by
  induction items with
  | nil => rfl
  | cons j rest ih => rw [foldItems, ih, List.map_cons]

theorem foldMembers_eq (members : List (Str × Json)) :
    foldMembers leaf array object members =
      members.map fun m => (m.1, foldParts leaf array object m.2) := by
  induction members with
  | nil => rfl
  | cons m rest ih =>
      obtain ⟨name, j⟩ := m
      rw [foldMembers, ih, List.map_cons]

end Json

namespace Source

open Json (foldItems_eq foldMembers_eq variant?)

namespace Expr

theorem reading_json (j : Json) : (reading j).json = j := by
  cases j <;> rfl

theorem reading_items (items : List Json) :
    reading (.array items) = .ofItems (.array items) (items.map reading) := by
  rw [reading, Json.foldParts, foldItems_eq]

theorem reading_members (members : List (Json.Str × Json)) :
    reading (.object members) =
      .ofMembers (.object members) (members.map fun m => (m.1, reading m.2)) := by
  rw [reading, Json.foldParts, foldMembers_eq]

theorem json_comp_reading : Reading.json ∘ reading = id := funext reading_json

theorem reading_expr (j : Json) : (reading j).expr = ofJson? j := rfl

/-- The expression of a kind with the given fields, which are values here and are read on the way. -/
def ofParts? (kind : String) (fields : List (Option Json)) : Option Expr :=
  ofFields? kind (fields.map (Option.map reading))

/-- An expression is read by its kind, from the fields of that kind. This is the equation by which later
proofs unfold the reader. -/
theorem ofJson?_eq (j : Json) : ofJson? j = (variant? kinds j).bind fun v => ofParts? v.1 v.2 := by
  cases j with
  | array items =>
      rw [ofJson?, reading_items, Reading.ofItems, Json.variantOfItems?_map, json_comp_reading,
        Option.bind_map]
      rfl
  | object members =>
      rw [ofJson?, reading_members, Reading.ofMembers, Json.variantOfMembers?_map, json_comp_reading,
        Option.bind_map]
      rfl
  | _ => rfl

/-- The reading of a value has the list of expressions that the value reads as. -/
theorem reading_exprs (j : Json) : (reading j).exprs = j.list? ofJson? := by
  cases j with
  | array items =>
      rw [reading_items, Reading.ofItems, List.mapM_map]
      rfl
  | object members => rw [reading_members]; rfl
  | _ => rfl

variable {e : Expr} {value name ty base place inner size operand elements op left right receiver method
  arguments : Json}

theorem ofParts?_intLiteral :
    ofParts? "IntLiteral" [some value] = some e ↔ ∃ n, value.int32? = some n ∧ .intLiteral n = e := by
  change (reading value).json.int32?.map Expr.intLiteral = some e ↔ _
  rw [reading_json, Option.map_eq_some_iff]

theorem ofParts?_boolLiteral :
    ofParts? "BoolLiteral" [some value] = some e ↔ ∃ b, value.bool? = some b ∧ .boolLiteral b = e := by
  change (reading value).json.bool?.map Expr.boolLiteral = some e ↔ _
  rw [reading_json, Option.map_eq_some_iff]

theorem ofParts?_ident :
    ofParts? "Identifier" [some name, some ty] = some e ↔
      ∃ n, name.text? = some n ∧ ∃ t, Ty.ofJson? ty = some t ∧ .ident n t = e := by
  change ((reading name).json.text?.bind fun n => (Ty.ofJson? (reading ty).json).bind fun t =>
    some (.ident n t)) = some e ↔ _
  simp only [reading_json, Option.bind_eq_some_iff, Option.some.injEq]

theorem ofParts?_self :
    ofParts? "This" [some ty] = some e ↔ ∃ t, Ty.ofJson? ty = some t ∧ .self t = e := by
  change (Ty.ofJson? (reading ty).json).map Expr.self = some e ↔ _
  rw [reading_json, Option.map_eq_some_iff]

theorem ofParts?_index :
    ofParts? "ArrayAccess" [some base, some place, some ty] = some e ↔
      ∃ b, ofJson? base = some b ∧ ∃ p, ofJson? place = some p ∧
        ∃ t, Ty.ofJson? ty = some t ∧ .index b p t = e := by
  change ((reading base).expr.bind fun b => (reading place).expr.bind fun p =>
    (Ty.ofJson? (reading ty).json).bind fun t => some (.index b p t)) = some e ↔ _
  simp only [reading_json, reading_expr, Option.bind_eq_some_iff, Option.some.injEq]

theorem ofParts?_paren :
    ofParts? "Parentheses" [some inner] = some e ↔ ∃ i, ofJson? inner = some i ∧ .paren i = e := by
  change (reading inner).expr.map Expr.paren = some e ↔ _
  rw [reading_expr, Option.map_eq_some_iff]

theorem ofParts?_not :
    ofParts? "Not" [some operand] = some e ↔ ∃ o, ofJson? operand = some o ∧ .not o = e := by
  change (reading operand).expr.map Expr.not = some e ↔ _
  rw [reading_expr, Option.map_eq_some_iff]

theorem ofParts?_newArray :
    ofParts? "NewArray" [some size] = some e ↔ ∃ s, ofJson? size = some s ∧ .newArray s = e := by
  change (reading size).expr.map Expr.newArray = some e ↔ _
  rw [reading_expr, Option.map_eq_some_iff]

theorem ofParts?_newObject :
    ofParts? "NewObject" [some name] = some e ↔ ∃ n, name.text? = some n ∧ .newObject n = e := by
  change (reading name).json.text?.map Expr.newObject = some e ↔ _
  rw [reading_json, Option.map_eq_some_iff]

theorem ofParts?_arrayLiteral :
    ofParts? "ArrayInit" [some elements] = some e ↔
      ∃ es, elements.list? ofJson? = some es ∧ .arrayLiteral es = e := by
  change (reading elements).exprs.map Expr.arrayLiteral = some e ↔ _
  rw [reading_exprs, Option.map_eq_some_iff]

theorem ofParts?_binary :
    ofParts? "Binary" [some op, some left, some right, some ty] = some e ↔
      ∃ o, BinaryOp.ofJson? op = some o ∧ ∃ l, ofJson? left = some l ∧ ∃ r, ofJson? right = some r ∧
        ∃ t, Ty.ofJson? ty = some t ∧ .binary o l r t = e := by
  change ((BinaryOp.ofJson? (reading op).json).bind fun o => (reading left).expr.bind fun l =>
    (reading right).expr.bind fun r => (Ty.ofJson? (reading ty).json).bind fun t =>
      some (.binary o l r t)) = some e ↔ _
  simp only [reading_json, reading_expr, Option.bind_eq_some_iff, Option.some.injEq]

/-- A call is read from its receiver, its method, its arguments and its type. -/
theorem ofParts?_call :
    ofParts? "MethodCall" [some receiver, some method, some arguments, some ty] = some e ↔
      ∃ r, ofJson? receiver = some r ∧ ∃ m, method.text? = some m ∧
        ∃ as, arguments.list? ofJson? = some as ∧ ∃ t, Ty.ofJson? ty = some t ∧ .call r m as t = e := by
  change ((reading receiver).expr.bind fun r => (reading method).json.text?.bind fun m =>
    (reading arguments).exprs.bind fun as => (Ty.ofJson? (reading ty).json).bind fun t =>
      some (.call r m as t)) = some e ↔ _
  simp only [reading_json, reading_expr, reading_exprs, Option.bind_eq_some_iff, Option.some.injEq]

end Expr

namespace Stmt

theorem reading_json (j : Json) : (reading j).json = j := by
  cases j <;> rfl

theorem reading_items (items : List Json) :
    reading (.array items) = .ofItems (.array items) (items.map reading) := by
  rw [reading, Json.foldParts, foldItems_eq]

theorem reading_members (members : List (Json.Str × Json)) :
    reading (.object members) =
      .ofMembers (.object members) (members.map fun m => (m.1, reading m.2)) := by
  rw [reading, Json.foldParts, foldMembers_eq]

theorem json_comp_reading : Reading.json ∘ reading = id := funext reading_json

theorem reading_stmt (j : Json) : (reading j).stmt = ofJson? j := rfl

/-- The statement of a kind with the given fields, which are values here and are read on the way. -/
def ofParts? (kind : String) (fields : List (Option Json)) : Option Stmt :=
  ofFields? kind (fields.map (Option.map reading))

theorem ofJson?_eq (j : Json) : ofJson? j = (variant? kinds j).bind fun v => ofParts? v.1 v.2 := by
  cases j with
  | array items =>
      rw [ofJson?, reading_items, Reading.ofItems, Json.variantOfItems?_map, json_comp_reading,
        Option.bind_map]
      rfl
  | object members =>
      rw [ofJson?, reading_members, Reading.ofMembers, Json.variantOfMembers?_map, json_comp_reading,
        Option.bind_map]
      rfl
  | _ => rfl

theorem reading_stmts (j : Json) : (reading j).stmts = j.list? ofJson? := by
  cases j with
  | array items =>
      rw [reading_items, Reading.ofItems, List.mapM_map]
      rfl
  | object members => rw [reading_members]; rfl
  | _ => rfl

/-- A statement that may be missing or `null` is read like any other value of that sort. -/
theorem reading_optional (j : Option Json) :
    Reading.optional? (j.map reading) = (j.getD .null).nullable? ofJson? := by
  cases j with
  | none => rfl
  | some j => cases j <;> rfl

variable {s : Stmt} {statements condition thenBranch body target value expr : Json} {optional : Option Json}

theorem ofParts?_block :
    ofParts? "Block" [some statements] = some s ↔
      ∃ ss, statements.list? ofJson? = some ss ∧ .block ss = s := by
  change (reading statements).stmts.map Stmt.block = some s ↔ _
  rw [reading_stmts, Option.map_eq_some_iff]

/-- A conditional is read from its condition and its branches, of which the second one may be missing. -/
theorem ofParts?_cond :
    ofParts? "If" [some condition, some thenBranch, optional] = some s ↔
      ∃ c, Expr.ofJson? condition = some c ∧ ∃ t, ofJson? thenBranch = some t ∧
        ∃ e, (optional.getD .null).nullable? ofJson? = some e ∧ .cond c t e = s := by
  change ((Expr.ofJson? (reading condition).json).bind fun c => (reading thenBranch).stmt.bind fun t =>
    (Reading.optional? (optional.map reading)).bind fun e => some (.cond c t e)) = some s ↔ _
  simp only [reading_json, reading_stmt, reading_optional, Option.bind_eq_some_iff, Option.some.injEq]

theorem ofParts?_loop :
    ofParts? "While" [some condition, some body] = some s ↔
      ∃ c, Expr.ofJson? condition = some c ∧ ∃ b, ofJson? body = some b ∧ .loop c b = s := by
  change ((Expr.ofJson? (reading condition).json).bind fun c => (reading body).stmt.bind fun b =>
    some (.loop c b)) = some s ↔ _
  simp only [reading_json, reading_stmt, Option.bind_eq_some_iff, Option.some.injEq]

theorem ofParts?_assign :
    ofParts? "Assign" [some target, some value] = some s ↔
      ∃ t, Expr.ofJson? target = some t ∧ ∃ v, Expr.ofJson? value = some v ∧ .assign t v = s := by
  change ((Expr.ofJson? (reading target).json).bind fun t =>
    (Expr.ofJson? (reading value).json).bind fun v => some (.assign t v)) = some s ↔ _
  simp only [reading_json, Option.bind_eq_some_iff, Option.some.injEq]

theorem ofParts?_ret :
    ofParts? "Return" [optional] = some s ↔
      ∃ v, (optional.getD .null).nullable? Expr.ofJson? = some v ∧ .ret v = s := by
  rw [← Option.map_eq_some_iff]
  cases optional with
  | none => rfl
  | some j =>
      change ((reading j).json.nullable? Expr.ofJson?).map Stmt.ret = some s ↔ _
      rw [reading_json, Option.getD_some]

theorem ofParts?_eval :
    ofParts? "Expression" [some expr] = some s ↔ ∃ e, Expr.ofJson? expr = some e ∧ .eval e = s := by
  change (Expr.ofJson? (reading expr).json).map Stmt.eval = some s ↔ _
  rw [reading_json, Option.map_eq_some_iff]

end Stmt

/-- A program is read from the texts of the values that stand for it, and from no others. -/
theorem Program.parse_eq_ok {s : String} {p : Program} :
    parse s = .ok p ↔ ∃ j : Json, j.IsText s ∧ ofJson? j = some p := by
  simp only [Json.isText_iff]
  rw [parse]
  cases Json.parse? s with
  | none => simp
  | some j => cases hRead : ofJson? j <;> simp [ofJson, hRead]

end Source

end MiniJava
