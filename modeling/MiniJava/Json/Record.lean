import MiniJava.Json.Basic

/-!
Records and variants written in JSON. A record is an object with a member for each field or an
array of the fields in their order. A variant is a record that begins with its kind: the member
`kind`, anywhere in the object, or the first item of the array.
-/

namespace MiniJava.Json

/-- When a field may be missing. An array can leave out fields only at its end, so the cases differ in
what they allow there. -/
inductive Presence where
  /-- Never. -/
  | required
  /-- From an object. -/
  | nullable
  /-- From an object, and from an array when all later fields are missing too. -/
  | defaulted
deriving DecidableEq, Repr, Inhabited

/-- A field of a record: its name and when it may be missing. What its value must be is for the reader of
the record to say. -/
structure Field where
  name : String
  presence : Presence
deriving DecidableEq, Repr, Inhabited

/-- The names of the members, provided that each spells a text. One name with half a character makes the
object useless as a record. -/
def named? (members : List (Str × α)) : Option (List (String × α)) :=
  members.mapM fun (name, value) => name.text?.map (·, value)

/-- The value of a field in an object. A field may not be written twice, and one that must be there may
not be missing; whether the value is of use is not asked here. -/
def memberOf? (members : List (String × α)) (field : Field) : Option (Option α) :=
  match members.filter (·.1 = field.name) with
  | [] => if field.presence = .required then none else some none
  | [(_, value)] => some (some value)
  | _ :: _ :: _ => none

/-- The values of the fields in an object. Members of other names are passed over, so a record may be
read from an object that holds more. -/
def fieldsOfMembers? (fields : List Field) (members : List (String × α)) :
    Option (List (Option α)) :=
  fields.mapM (memberOf? members)

/-- The values of the fields in an array, which may not have more items. Fields are told by their places,
and those at the end may be missing if all of them allow it. -/
def fieldsOfItems? : List Field → List α → Option (List (Option α))
  | [], [] => some []
  | [], _ :: _ => none
  | _ :: fields, value :: items => (fieldsOfItems? fields items).map (some value :: ·)
  | field :: fields, [] =>
      if field.presence = .defaulted then (fieldsOfItems? fields []).map (none :: ·) else none

/-- The values of the fields of a record, in their order. Only objects and arrays are records; nothing
else has parts. -/
def record? (fields : List Field) : Json → Option (List (Option Json))
  | .array items => fieldsOfItems? fields items
  | .object members => (named? members).bind (fieldsOfMembers? fields)
  | _ => none

/-- A kind of a variant with the fields that follow it. The place of a kind among the others counts too,
since a number can stand for it. -/
structure Kind where
  name : String
  fields : List Field
deriving DecidableEq, Repr, Inhabited

/-- The kind that a value names, by its name or by its place among the kinds. Names are compared letter
by letter. -/
def kindOf? (kinds : List Kind) : Json → Option Kind
  | .string s => s.text?.bind fun name => kinds.find? (·.name = name)
  | .number ⟨false, place, none⟩ => kinds[place]?
  | _ => none

/-- The kind and the fields of a variant written as an object. `json` gives the value that a member
stands for. -/
def variantOfMembers? (kinds : List Kind) (json : α → Json) (members : List (Str × α)) :
    Option (String × List (Option α)) := do
  let members ← named? members
  match ← memberOf? members ⟨"kind", .required⟩ with
  | none => none
  | some tag =>
      let kind ← kindOf? kinds (json tag)
      let values ← fieldsOfMembers? kind.fields (members.filter (·.1 ≠ "kind"))
      return (kind.name, values)

/-- The kind and the fields of a variant written as an array. The first item is the kind, the rest are
the fields by their places. -/
def variantOfItems? (kinds : List Kind) (json : α → Json) :
    List α → Option (String × List (Option α))
  | [] => none
  | tag :: items => do
      let kind ← kindOf? kinds (json tag)
      let values ← fieldsOfItems? kind.fields items
      return (kind.name, values)

/-- Whether a variant gives its kind by name. This is asked before the kind is looked up, so any text
passes. -/
def namesKind : Json → Bool
  | .object members => members.any fun (name, value) =>
      name = .text "kind" && value.text?.isSome
  | .array (tag :: _) => tag.text?.isSome
  | _ => false

end MiniJava.Json
