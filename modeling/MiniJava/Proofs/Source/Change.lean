import Mathlib.Data.List.Nodup
import MiniJava.Proofs.Json.Checks
import MiniJava.Proofs.Json.Members
import MiniJava.Source.Reader

/-! Changes of a JSON value that are to leave the program as it is. The fields that an object may have, and
what may be left out of it, depend on the part of the program that the object stands for, so that a change
is one of a certain part. -/

namespace MiniJava

namespace Json

/-- Whether the value is neither an array nor an object, so that it has no parts which could be
changed. -/
def isPlain : Json → Bool
  | .array _ | .object _ => false
  | _ => true

end Json

namespace Source

open Json (Field Kind Str found? kindField kindOf?)

/-- What a value stands for in a program. It is found from the outside inwards, since the same value may
stand for different things in different places. -/
inductive Part where
  /-- A name, a number, a truth value or nothing. -/
  | leaf
  | operator
  /-- What stands inside an object that stands for an operator. If the operator is written as
  `{"+": {}}`, that is the inner object, which the reader wants to be empty. -/
  | inOperator
  /-- A member that is passed over, and everything inside it. -/
  | ignored
  | ty
  | declaration
  | expr
  /-- An expression or `null`. -/
  | optionalExpr
  | stmt
  /-- A statement or `null`. -/
  | optionalStmt
  /-- A statement that stands directly in a method body. -/
  | bodyStmt
  | method
  | decl
  | program
  | list (item : Part)
deriving DecidableEq

namespace Part

/-- The fields of a part that is a record, each with what is done where it is missing. Other parts have
none. -/
def recordFields : Part → List Field
  | .ty => [⟨"name", .required⟩, ⟨"is_array", .required⟩]
  | .declaration => [⟨"name", .required⟩, ⟨"type", .required⟩, ⟨"is_varargs", .defaulted⟩]
  | .method =>
      [⟨"name", .required⟩, ⟨"is_public", .defaulted⟩, ⟨"is_static", .defaulted⟩,
        ⟨"return_type", .required⟩, ⟨"parameters", .required⟩, ⟨"locals", .defaulted⟩,
        ⟨"body", .required⟩]
  | .decl =>
      [⟨"name", .required⟩, ⟨"super_class", .defaulted⟩, ⟨"fields", .defaulted⟩,
        ⟨"methods", .required⟩]
  | .program => [⟨"imports", .defaulted⟩, ⟨"class", .required⟩]
  | _ => []

/-- The kinds of a part that is a variant. Other parts have none, which is how they are told apart. -/
def kinds : Part → List Kind
  | .expr | .optionalExpr => Expr.kinds
  | .stmt | .optionalStmt | .bodyStmt => Stmt.kinds
  | _ => []

/-- The fields of the part, where `tag` is the value that gives the kind of a variant. Without a kind
only the field that would give it is known. -/
def fields (part : Part) (tag : Option Json) : List Field :=
  if part.kinds = [] then part.recordFields
  else kindField :: ((tag.bind (kindOf? part.kinds)).map (·.fields)).getD []

/-- What the field of an expression stands for. The kind is left out, since no two kinds use one name for
different things. -/
def ofExprField (name : String) : Part :=
  if name = "expr_type" then .ty
  else if name = "op" then .operator
  else if name ∈ ["array", "index", "inner", "operand", "size", "left", "right", "receiver"] then .expr
  else if name ∈ ["elements", "arguments"] then .list .expr
  else .leaf

/-- What the field of a statement stands for. The value of a return may be missing, and so that of an
assignment is allowed to be here too. -/
def ofStmtField (name : String) : Part :=
  if name = "statements" then .list .stmt
  else if name ∈ ["condition", "target", "expr"] then .expr
  else if name ∈ ["then_stmt", "body"] then .stmt
  else if name = "else_stmt" then .optionalStmt
  else if name = "value" then .optionalExpr
  else .leaf

/-- What the field of that name stands for. A name that the part does not have stands for a plain value
here; it is not asked for. -/
def field (part : Part) (name : String) : Part :=
  match part with
  | .declaration => if name = "type" then .ty else .leaf
  | .expr | .optionalExpr => ofExprField name
  | .stmt | .optionalStmt | .bodyStmt => ofStmtField name
  | .method =>
      if name = "return_type" then .ty
      else if name ∈ ["parameters", "locals"] then .list .declaration
      else if name = "body" then .list .bodyStmt
      else .leaf
  | .decl =>
      if name = "fields" then .list .declaration
      else if name = "methods" then .list .method
      else .leaf
  | .program =>
      if name = "imports" then .list (.list .leaf)
      else if name = "class" then .decl
      else .leaf
  | _ => .leaf

/-- What stands inside the part and is none of its fields. It is passed over, but for an operator, whose
object has no fields and all the same is read as a whole. -/
def rest : Part → Part
  | .operator | .inOperator => .inOperator
  | _ => .ignored

/-- What the member of that name stands for, where `tag` is the value that gives the kind. Members that
are no fields are passed over, or stand inside an operator. -/
def member (part : Part) (tag : Option Json) (name : Str) : Part :=
  match (part.fields tag).find? (.text ·.name = name) with
  | some f => part.field f.name
  | none => part.rest

/-- What the item at that place stands for. In a variant the first item gives the kind, and the fields
follow it. -/
def item (part : Part) (items : List Json) (place : Nat) : Part :=
  match part with
  | .list p => p
  | _ =>
      match (part.fields items.head?)[place]? with
      | some f => part.field f.name
      | none => part.rest

section

variable {part : Part} {tag : Option Json} {field other : Field}

/-- No kind of a variant has two fields of one name, or one called like the member with the kind. -/
theorem kinds_nodup (part : Part) : ∀ kind ∈ part.kinds, ("kind" :: kind.fields.map (·.name)).Nodup := by
  have hExpr : ∀ kind ∈ Expr.kinds, ("kind" :: kind.fields.map (·.name)).Nodup := by decide
  have hStmt : ∀ kind ∈ Stmt.kinds, ("kind" :: kind.fields.map (·.name)).Nodup := by decide
  cases part <;> first | exact hExpr | exact hStmt | nofun

/-- No record has two fields of one name, or one called like the member with the kind. -/
theorem recordFields_nodup (part : Part) : ("kind" :: part.recordFields.map (·.name)).Nodup := by
  cases part with
  | list => exact List.nodup_singleton _
  | _ => decide

theorem kindFields_name_ne (part : Part) : ∀ kind ∈ part.kinds, ∀ f ∈ kind.fields, f.name ≠ "kind" :=
  fun kind hKind f hf hName =>
    (List.nodup_cons.mp (part.kinds_nodup kind hKind)).1 (List.mem_map.mpr ⟨f, hf, hName⟩)

theorem recordFields_name_ne (part : Part) : ∀ f ∈ part.recordFields, f.name ≠ "kind" :=
  fun f hf hName => (List.nodup_cons.mp part.recordFields_nodup).1 (List.mem_map.mpr ⟨f, hf, hName⟩)

/-- Whatever the kind, no two fields have one name, the field with the kind included. -/
theorem fields_nodup (part : Part) (tag : Option Json) : ((part.fields tag).map (·.name)).Nodup := by
  unfold fields
  split_ifs
  · exact (List.nodup_cons.mp part.recordFields_nodup).2
  · cases hKind : tag.bind (kindOf? part.kinds) with
    | none => exact List.nodup_singleton _
    | some kind =>
        obtain ⟨tag, -, hTag⟩ := Option.bind_eq_some_iff.mp hKind
        exact part.kinds_nodup kind (Json.kindOf?_mem hTag)

theorem eq_of_name_eq (h : field ∈ part.fields tag) (hOther : other ∈ part.fields tag)
    (hName : field.name = other.name) : field = other :=
  List.inj_on_of_nodup_map (part.fields_nodup tag) h hOther hName

/-- A field that may be missing does not hold the kind, so writing a default out never changes the
kind. -/
theorem name_ne_kind (h : field ∈ part.fields tag) (hPresence : field.presence ≠ .required) :
    field.name ≠ "kind" := by
  unfold fields at h
  split_ifs at h with hKinds
  · exact part.recordFields_name_ne field h
  · rcases List.mem_cons.mp h with rfl | hField
    · exact (hPresence rfl).elim
    · cases hKind : tag.bind (kindOf? part.kinds) with
      | none =>
          rw [hKind] at hField
          cases hField
      | some kind =>
          rw [hKind] at hField
          obtain ⟨tag, -, hTag⟩ := Option.bind_eq_some_iff.mp hKind
          exact part.kindFields_name_ne kind (Json.kindOf?_mem hTag) field hField

/-- A member with the name of a field stands for what the field stands for. -/
theorem member_of_mem (h : field ∈ part.fields tag) :
    part.member tag (.text field.name) = part.field field.name := by
  have hSome : ((part.fields tag).find? (Str.text ·.name = .text field.name)).isSome = true :=
    List.find?_isSome.mpr ⟨field, h, by simp⟩
  obtain ⟨found, hFind⟩ := Option.isSome_iff_exists.mp hSome
  have hName : Str.text found.name = .text field.name := by simpa using List.find?_some hFind
  have hFound := List.mem_of_find?_eq_some hFind
  rw [member, hFind, eq_of_name_eq hFound h (Str.text.inj hName)]

theorem item_of_getElem? {items : List Json} {place : Nat}
    (h : (part.fields items.head?)[place]? = some field) :
    part.item items place = part.field field.name := by
  cases part with
  | list => cases place <;> cases h
  | _ =>
      unfold item
      rw [h]

/-- Where in a program the part may stand: a statement of a method body with the brackets around it, what
holds such statements accordingly, and any other part everywhere. -/
def At : Part → Nat → Prop
  | .program, limit => limit = Stmt.nestingLimit
  | .decl, limit => limit + 1 = Stmt.nestingLimit
  | .method, limit => limit + 3 = Stmt.nestingLimit
  | .bodyStmt, limit => limit + Stmt.nestingAround = Stmt.nestingLimit
  | .list p, limit => p.At (limit - 1)
  | _, _ => True

variable {limit : Nat}

theorem at_ite {c : Prop} [Decidable c] {p q : Part} (hp : p.At limit) (hq : q.At limit) :
    (if c then p else q).At limit := by
  split
  · exact hp
  · exact hq

theorem at_ofExprField (name : String) : (ofExprField name).At limit :=
  at_ite trivial (at_ite trivial (at_ite trivial (at_ite trivial trivial)))

/-- The fields of a statement may stand at any depth. Only the statements of a method body have to stand
at one. -/
theorem at_ofStmtField (name : String) : (ofStmtField name).At limit :=
  at_ite trivial (at_ite trivial (at_ite trivial (at_ite trivial (at_ite trivial trivial))))

theorem at_field (h : part.At (limit + 1)) (name : String) : (part.field name).At limit := by
  cases part with
  | expr | optionalExpr => exact at_ofExprField name
  | stmt | optionalStmt | bodyStmt => exact at_ofStmtField name
  | declaration => exact at_ite trivial trivial
  | method =>
      have hBody : (Part.list .bodyStmt).At limit := by
        simp only [At, Stmt.nestingLimit, Stmt.nestingAround] at h ⊢
        omega
      exact at_ite trivial (at_ite trivial (at_ite hBody trivial))
  | decl =>
      have hMethods : (Part.list .method).At limit := by
        simp only [At, Stmt.nestingLimit] at h ⊢
        omega
      exact at_ite trivial (at_ite hMethods trivial)
  | program =>
      have hClass : Part.decl.At limit := h
      exact at_ite trivial (at_ite hClass trivial)
  | _ => trivial

theorem at_rest (part : Part) : part.rest.At limit := by
  cases part <;> trivial

theorem at_member (h : part.At (limit + 1)) (tag : Option Json) (name : Str) :
    (part.member tag name).At limit := by
  unfold member
  split
  · exact at_field h _
  · exact part.at_rest

theorem at_item (h : part.At (limit + 1)) (items : List Json) (place : Nat) :
    (part.item items place).At limit := by
  unfold item
  split
  · exact h
  · split
    · exact at_field h _
    · exact part.at_rest

end

end Part

/-- What a field stands for that is missing. A field that must be there has no default, and null stands
here for none. -/
def default (field : Field) : Json :=
  match field.presence with
  | .required | .nullable => .null
  | .defaulted =>
      if field.name = "is_public" then .bool true
      else if field.name ∈ ["is_static", "is_varargs"] then .bool false
      else if field.name ∈ ["locals", "fields", "imports"] then .array []
      else .null

/-- The value that gives the kind of a variant, if some member of the object does. -/
def tagOf (members : List (Str × Json)) : Option Json :=
  (members.find? (·.1 = .text kindField.name)).map (·.2)

section

variable {members before after : List (Str × Json)}

theorem tagOf_middle {name : Str} {value : Json} (h : name ≠ .text "kind") :
    tagOf (before ++ (name, value) :: after) = tagOf (before ++ after) := by
  rw [tagOf, tagOf, List.find?_append, List.find?_append,
    List.find?_cons_of_neg (by simp [kindField, h])]

theorem tagOf_of_found? {tag : Json} (h : found? members kindField = some (some tag)) :
    tagOf members = some tag := by
  rw [tagOf, ← List.head?_filter]
  unfold found? at h
  split at h
  · cases h
  · rename_i hFilter
    cases h
    rw [hFilter]
    rfl
  · cases h

end

/-- One change of a value within `limit` brackets, at one place and whatever its depth. Members are added
to objects that stand for parts in `adds`, and to no others. -/
inductive Change (adds : Part → Bool) : (limit : Nat) → Part → Json → Json → Prop
  /-- The members of an object in another order. -/
  | reorder {limit : Nat} {part : Part} {members members' : List (Str × Json)}
      (h : members.Perm members') : Change adds limit part (.object members) (.object members')
  /-- One more member, of a name that is not known. -/
  | add {limit : Nat} {part : Part} {before after : List (Str × Json)} {name : String} {value : Json}
      (hPart : adds part = true)
      (hName : name ∉ (part.fields (tagOf (before ++ after))).map (·.name))
      (hLegible : value.legible = true) (hNests : value.nestsWithin limit = true) :
      Change adds (limit + 1) part (.object (before ++ after))
        (.object (before ++ (.text name, value) :: after))
  /-- One member less, which holds its default. -/
  | leaveOut {limit : Nat} {part : Part} {before after : List (Str × Json)} {field : Field}
      (hField : field ∈ part.fields (tagOf (before ++ after))) (hPresence : field.presence ≠ .required) :
      Change adds limit part (.object (before ++ (.text field.name, default field) :: after))
        (.object (before ++ after))
  /-- A missing member, written out with its default. -/
  | writeOut {limit : Nat} {part : Part} {before after : List (Str × Json)} {field : Field}
      (hField : field ∈ part.fields (tagOf (before ++ after))) (hPresence : field.presence ≠ .required)
      (hMissing : ∀ m ∈ before ++ after, m.1 ≠ .text field.name)
      (hNests : (default field).nestsWithin limit = true) :
      Change adds (limit + 1) part (.object (before ++ after))
        (.object (before ++ (.text field.name, default field) :: after))
  /-- A change in the value of a member. -/
  | member {limit : Nat} {part : Part} {before after : List (Str × Json)} {name : Str}
      {value value' : Json}
      (h : Change adds limit (part.member (tagOf (before ++ (name, value) :: after)) name) value value') :
      Change adds (limit + 1) part (.object (before ++ (name, value) :: after))
        (.object (before ++ (name, value') :: after))
  /-- A change in an item of an array. -/
  | item {limit : Nat} {part : Part} {before after : List Json} {value value' : Json}
      (h : Change adds limit (part.item (before ++ value :: after) before.length) value value') :
      Change adds (limit + 1) part (.array (before ++ value :: after))
        (.array (before ++ value' :: after))

section

variable {adds : Part → Bool} {limit : Nat} {part : Part} {j j' : Json}

/-- Defaults are nothing, truth values and empty arrays, all of which can be shown. -/
theorem legible_default (field : Field) : (default field).legible = true := by
  unfold default
  split
  · rfl
  · rfl
  · split_ifs <;> rfl

theorem forall_mem_middle {α : Type} {p : α → Prop} {before after : List α} {a : α} :
    (∀ x ∈ before ++ a :: after, p x) ↔ p a ∧ ∀ x ∈ before ++ after, p x := by
  simp only [List.forall_mem_append, List.forall_mem_cons]
  exact and_left_comm

theorem exists_mem_middle {α : Type} {p : α → Prop} {before after : List α} {a : α} :
    (∃ x ∈ before ++ a :: after, p x) ↔ p a ∨ ∃ x ∈ before ++ after, p x := by
  simp only [List.mem_append, List.mem_cons, or_and_right, exists_or, exists_eq_left]
  exact or_left_comm

/-- A change leaves legible what is legible: what is added is legible itself, and the rest was there. -/
theorem Change.legible (h : Change adds limit part j j') (hj : j.legible = true) :
    j'.legible = true := by
  induction h with
  | reorder h =>
      rw [Json.legible_object] at hj ⊢
      exact fun m hm => hj m (h.mem_iff.mpr hm)
  | add hPart hName hLegible hNests =>
      rw [Json.legible_object] at hj ⊢
      exact forall_mem_middle.mpr ⟨⟨rfl, hLegible⟩, hj⟩
  | leaveOut hField hPresence =>
      rw [Json.legible_object] at hj ⊢
      exact (forall_mem_middle.mp hj).2
  | writeOut hField hPresence hMissing hNests =>
      rw [Json.legible_object] at hj ⊢
      exact forall_mem_middle.mpr ⟨⟨rfl, legible_default _⟩, hj⟩
  | member h ih =>
      rw [Json.legible_object] at hj ⊢
      obtain ⟨⟨hName, hValue⟩, hOthers⟩ := forall_mem_middle.mp hj
      exact forall_mem_middle.mpr ⟨⟨hName, ih hValue⟩, hOthers⟩
  | item h ih =>
      rw [Json.legible_array] at hj ⊢
      obtain ⟨hValue, hOthers⟩ := forall_mem_middle.mp hj
      exact forall_mem_middle.mpr ⟨ih hValue, hOthers⟩

/-- A change stays within its limit, which is that of the place where it is made. -/
theorem Change.nestsWithin (h : Change adds limit part j j') (hj : j.nestsWithin limit = true) :
    j'.nestsWithin limit = true := by
  induction h with
  | @reorder limit part members members' h =>
      cases limit with
      | zero => cases hj
      | succ limit =>
          rw [Json.nestsWithin_object] at hj ⊢
          exact fun m hm => hj m (h.mem_iff.mpr hm)
  | add hPart hName hLegible hNests =>
      rw [Json.nestsWithin_object] at hj ⊢
      exact forall_mem_middle.mpr ⟨hNests, hj⟩
  | @leaveOut limit part before after field hField hPresence =>
      cases limit with
      | zero => cases hj
      | succ limit =>
          rw [Json.nestsWithin_object] at hj ⊢
          exact (forall_mem_middle.mp hj).2
  | writeOut hField hPresence hMissing hNests =>
      rw [Json.nestsWithin_object] at hj ⊢
      exact forall_mem_middle.mpr ⟨hNests, hj⟩
  | member h ih =>
      rw [Json.nestsWithin_object] at hj ⊢
      obtain ⟨hValue, hOthers⟩ := forall_mem_middle.mp hj
      exact forall_mem_middle.mpr ⟨ih hValue, hOthers⟩
  | item h ih =>
      rw [Json.nestsWithin_array] at hj ⊢
      obtain ⟨hValue, hOthers⟩ := forall_mem_middle.mp hj
      exact forall_mem_middle.mpr ⟨ih hValue, hOthers⟩

theorem isPlain_of_kindOf? {kinds : List Kind} {tag : Json} {kind : Kind}
    (h : kindOf? kinds tag = some kind) : tag.isPlain = true := by
  cases tag with
  | array | object => cases h
  | _ => rfl

theorem isPlain_of_text? (h : j.text?.isSome = true) : j.isPlain = true := by
  cases j with
  | array | object => cases h
  | _ => rfl

/-- An object names its kind if one of its members of that name spells a text. -/
theorem namesKind_object {members : List (Str × Json)} : (Json.object members).namesKind = true ↔
    ∃ m ∈ members, m.1 = .text "kind" ∧ m.2.text?.isSome = true := by
  simp [Json.namesKind]

theorem Change.isPlain (h : Change adds limit part j j') : j.isPlain = false ∧ j'.isPlain = false := by
  cases h <;> exact ⟨rfl, rfl⟩

/-- What gives its kind by name, gives it by name after a change, for no change is made in the name of a
kind. -/
theorem Change.namesKind (h : Change adds limit part j j') (hj : j.namesKind = true) :
    j'.namesKind = true := by
  cases h with
  | reorder h =>
      rw [namesKind_object] at hj ⊢
      obtain ⟨m, hm, hKind⟩ := hj
      exact ⟨m, h.mem_iff.mp hm, hKind⟩
  | add | writeOut =>
      rw [namesKind_object] at hj ⊢
      exact exists_mem_middle.mpr (.inr hj)
  | leaveOut hField hPresence =>
      rw [namesKind_object] at hj ⊢
      rcases exists_mem_middle.mp hj with ⟨hName, -⟩ | hOther
      · exact (Part.name_ne_kind hField hPresence (Str.text.inj hName)).elim
      · exact hOther
  | member h =>
      rw [namesKind_object] at hj ⊢
      rcases exists_mem_middle.mp hj with ⟨-, hText⟩ | hOther
      · exact nomatch h.isPlain.1.symm.trans (isPlain_of_text? hText)
      · exact exists_mem_middle.mpr (.inr hOther)
  | @item limit part before after value value' h =>
      cases before with
      | nil => exact nomatch h.isPlain.1.symm.trans (isPlain_of_text? hj)
      | cons => exact hj

end

end Source

end MiniJava
