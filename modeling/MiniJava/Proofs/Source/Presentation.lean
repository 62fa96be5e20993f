import Mathlib.Logic.Relation
import MiniJava.Proofs.Json.Writing
import MiniJava.Proofs.Source.Kept
import MiniJava.Source.Writer

/-! Reading a program does not depend on how the program is presented. -/

namespace MiniJava.Source

open Json (Field Kind Str Named fieldsOfItems? found? kindField kindOf? record? variant?)

section

variable {part : Part} {members members' : List (Str × Json)}

/-- A field that is read keeps what it gives, if it is there where it must be. -/
theorem fieldKept_refl {partOf : String → Part} {field : Field} {value : Option Json}
    (h : field.presence = .required → value.isSome = true) : FieldKept partOf field value value := by
  unfold FieldKept
  split_ifs with hPresence
  · obtain ⟨v, rfl⟩ := Option.isSome_iff_exists.mp (h hPresence)
    exact ⟨v, v, rfl, rfl, Part.keeps_refl _ v⟩
  · exact Part.keeps_refl _ _

/-- What an object gives for the fields of a part: if the first object gives a value, the second gives
one that is kept. -/
def MembersKept (part : Part) (members members' : List (Str × Json)) : Prop :=
  (Named members → Named members') ∧
    ∀ field ∈ part.fields (tagOf members), ∀ value, found? members field = some value →
      ∃ value', found? members' field = some value' ∧ FieldKept part.field field value value'

theorem fieldKept_of_found? {partOf : String → Part} {field : Field} {value : Option Json}
    (h : found? members field = some value) : FieldKept partOf field value value :=
  fieldKept_refl (Json.isSome_of_found? h)

theorem membersKept_of_perm (h : members.Perm members') : MembersKept part members members' := by
  refine ⟨fun hNamed m hm => hNamed m (h.mem_iff.mpr hm), fun field _ value hValue => ?_⟩
  exact ⟨value, (Json.found?_perm h field).trans hValue, fieldKept_of_found? hValue⟩

variable {before after : List (Str × Json)}

theorem membersKept_of_add {name : String} {value : Json}
    (hName : name ∉ (part.fields (tagOf (before ++ after))).map (·.name)) :
    MembersKept part (before ++ after) (before ++ (.text name, value) :: after) := by
  refine ⟨fun hNamed => forall_mem_middle.mpr ⟨rfl, hNamed⟩, fun field hField found hFound => ?_⟩
  have hOther : Str.text name ≠ .text field.name := by
    intro hSame
    exact hName (List.mem_map.mpr ⟨field, hField, (Str.text.inj hSame).symm⟩)
  exact ⟨found, (Json.found?_of_ne hOther).trans hFound, fieldKept_of_found? hFound⟩

theorem membersKept_of_leaveOut {field : Field} (hField : field ∈ part.fields (tagOf (before ++ after)))
    (hPresence : field.presence ≠ .required) :
    MembersKept part (before ++ (.text field.name, default field) :: after) (before ++ after) := by
  refine ⟨fun hNamed => (forall_mem_middle.mp hNamed).2, fun other hOther found hFound => ?_⟩
  have hTag : Str.text field.name ≠ .text "kind" :=
    fun hSame => Part.name_ne_kind hField hPresence (Str.text.inj hSame)
  rw [tagOf_middle hTag] at hOther
  by_cases hSame : field.name = other.name
  · obtain rfl := Part.eq_of_name_eq hField hOther hSame
    obtain ⟨rfl, hMissing⟩ := Json.found?_eq_some hFound
    refine ⟨none, (Json.found?_of_missing hMissing).trans (if_neg hPresence), ?_⟩
    unfold FieldKept
    rw [if_neg hPresence]
    exact Part.keeps_refl _ _
  · have hName : Str.text field.name ≠ .text other.name := fun h => hSame (Str.text.inj h)
    exact ⟨found, (Json.found?_of_ne hName).symm.trans hFound, fieldKept_of_found? hFound⟩

theorem membersKept_of_writeOut {field : Field} (hField : field ∈ part.fields (tagOf (before ++ after)))
    (hPresence : field.presence ≠ .required) (hMissing : ∀ m ∈ before ++ after, m.1 ≠ .text field.name) :
    MembersKept part (before ++ after) (before ++ (.text field.name, default field) :: after) := by
  refine ⟨fun hNamed => forall_mem_middle.mpr ⟨rfl, hNamed⟩, fun other hOther found hFound => ?_⟩
  by_cases hSame : field.name = other.name
  · obtain rfl := Part.eq_of_name_eq hField hOther hSame
    rw [Json.found?_of_missing hMissing, if_neg hPresence] at hFound
    cases hFound
    refine ⟨some (default field), Json.found?_of_unique hMissing, ?_⟩
    unfold FieldKept
    rw [if_neg hPresence]
    exact Part.keeps_refl _ _
  · have hName : Str.text field.name ≠ .text other.name := fun h => hSame (Str.text.inj h)
    exact ⟨found, (Json.found?_of_ne hName).trans hFound, fieldKept_of_found? hFound⟩

theorem membersKept_of_member {name : Str} {value value' : Json}
    (h : (part.member (tagOf (before ++ (name, value) :: after)) name).Keeps value value') :
    MembersKept part (before ++ (name, value) :: after) (before ++ (name, value') :: after) := by
  refine ⟨fun hNamed => forall_mem_middle.mpr (forall_mem_middle.mp hNamed),
    fun field hField found hFound => ?_⟩
  by_cases hSame : name = .text field.name
  · obtain rfl := hSame
    obtain ⟨rfl, hUnique⟩ := Json.found?_eq_some hFound
    rw [Part.member_of_mem hField] at h
    refine ⟨some value', Json.found?_of_unique hUnique, ?_⟩
    unfold FieldKept
    split_ifs
    · exact ⟨value, value', rfl, rfl, h⟩
    · exact h
  · rw [Json.found?_of_ne hSame] at hFound
    exact ⟨found, (Json.found?_of_ne hSame).trans hFound, fieldKept_of_found? hFound⟩

/-- The values of fields that are kept one by one. -/
theorem fieldsKept_of_mapM {partOf : String → Part} {f f' : Field → Option (Option Json)}
    {fields : List Field} {values : List (Option Json)}
    (h : ∀ field ∈ fields, ∀ value, f field = some value →
      ∃ value', f' field = some value' ∧ FieldKept partOf field value value')
    (hValues : fields.mapM f = some values) :
    ∃ values', fields.mapM f' = some values' ∧ FieldsKept partOf fields values values' := by
  rw [Json.mapM_eq_some] at hValues
  simp only [Json.mapM_eq_some]
  induction hValues with
  | nil => exact ⟨[], .nil, .nil⟩
  | @cons field value fields values hHead _ ih =>
      obtain ⟨hFirst, hOthers⟩ := List.forall_mem_cons.mp h
      obtain ⟨value', hValue', hKept⟩ := hFirst value hHead
      obtain ⟨values', hValues', hRest⟩ := ih hOthers
      exact ⟨value' :: values', .cons hValue' hValues', .cons hKept hRest⟩

theorem recordKept_of_membersKept (hKinds : part.kinds = []) (h : MembersKept part members members') :
    RecordKept part (.object members) (.object members') := by
  intro values hValues
  obtain ⟨hNamed, hFound⟩ := Json.record?_object.mp hValues
  have hFields : part.fields (tagOf members) = part.recordFields := if_pos hKinds
  obtain ⟨values', hValues', hKept⟩ := fieldsKept_of_mapM (hFields ▸ h.2) hFound
  exact ⟨values', Json.record?_object.mpr ⟨h.1 hNamed, hValues'⟩, hKept⟩

/-- A variant looks at its members for its kind and for the fields of that kind only. -/
theorem variantKept_of_membersKept (hKindField : part.field "kind" = .leaf)
    (h : MembersKept part members members') : VariantKept part (.object members) (.object members') := by
  intro name values hValues
  obtain ⟨hNamed, tag, kind, hTag, hKind, hName, hFound⟩ :=
    (Json.variant?_object part.kindFields_name_ne).mp hValues
  have hMem := Json.kindOf?_mem hKind
  have hFields : part.fields (tagOf members) = kindField :: kind.fields := by
    rw [Part.fields, if_neg (List.ne_nil_of_mem hMem), tagOf_of_found? hTag, Option.bind_some, hKind]
    rfl
  obtain ⟨hKept, hOthers⟩ := List.forall_mem_cons.mp (hFields ▸ h.2)
  obtain ⟨_, hTag', ⟨_, tag', ⟨⟩, rfl, hSame⟩⟩ := hKept (some tag) hTag
  rw [kindField, hKindField] at hSame
  rw [hSame (isPlain_of_kindOf? hKind)] at hTag'
  obtain ⟨values', hValues', hValuesKept⟩ := fieldsKept_of_mapM hOthers hFound
  exact ⟨kind, hMem, hName, values', (Json.variant?_object part.kindFields_name_ne).mpr
    ⟨h.1 hNamed, tag, kind, hTag', hKind, hName, hValues'⟩, hValuesKept⟩

end

section

variable {part : Part} {partOf : String → Part} {fields : List Field} {before after : List Json}
  {value value' : Json}

theorem fieldsKept_refl {items : List Json} {values : List (Option Json)}
    (h : fieldsOfItems? fields items = some values) : FieldsKept partOf fields values values := by
  induction fields generalizing items values with
  | nil =>
      cases items with
      | nil =>
          cases h
          exact .nil
      | cons => cases h
  | cons field fields ih =>
      cases items with
      | nil =>
          rw [fieldsOfItems?] at h
          split_ifs at h with hPresence
          obtain ⟨rest, hRest, rfl⟩ := Option.map_eq_some_iff.mp h
          have hOptional : field.presence ≠ .required := by
            rw [hPresence]
            decide
          exact .cons (fieldKept_refl fun hRequired => (hOptional hRequired).elim) (ih hRest)
      | cons item items =>
          rw [fieldsOfItems?] at h
          obtain ⟨rest, hRest, rfl⟩ := Option.map_eq_some_iff.mp h
          exact .cons (fieldKept_refl fun _ => rfl) (ih hRest)

/-- One item of an array that is kept as the field in its place. -/
theorem fieldsKept_of_item {values : List (Option Json)}
    (h : ∀ field, fields[before.length]? = some field → (partOf field.name).Keeps value value')
    (hValues : fieldsOfItems? fields (before ++ value :: after) = some values) :
    ∃ values', fieldsOfItems? fields (before ++ value' :: after) = some values' ∧
      FieldsKept partOf fields values values' := by
  induction before generalizing fields values with
  | nil =>
      cases fields with
      | nil => cases hValues
      | cons field fields =>
          obtain ⟨rest, hRest, rfl⟩ := Option.map_eq_some_iff.mp hValues
          have hKept : FieldKept partOf field (some value) (some value') := by
            unfold FieldKept
            split_ifs
            · exact ⟨value, value', rfl, rfl, h field rfl⟩
            · exact h field rfl
          exact ⟨some value' :: rest, Option.map_eq_some_iff.mpr ⟨rest, hRest, rfl⟩,
            .cons hKept (fieldsKept_refl hRest)⟩
  | cons item before ih =>
      cases fields with
      | nil => cases hValues
      | cons field fields =>
          obtain ⟨rest, hRest, rfl⟩ := Option.map_eq_some_iff.mp hValues
          obtain ⟨rest', hRest', hKept⟩ := ih h hRest
          exact ⟨some item :: rest', Option.map_eq_some_iff.mpr ⟨rest', hRest', rfl⟩,
            .cons (fieldKept_refl fun _ => rfl) hKept⟩

/-- A record that is written as an array looks at its items by their places. -/
theorem recordKept_of_item (hKinds : part.kinds = [])
    (h : (part.item (before ++ value :: after) before.length).Keeps value value') :
    RecordKept part (.array (before ++ value :: after)) (.array (before ++ value' :: after)) := by
  intro values hValues
  have hFields : part.fields (before ++ value :: after).head? = part.recordFields := if_pos hKinds
  refine fieldsKept_of_item (fun field hField => ?_) hValues
  rw [← hFields] at hField
  rwa [Part.item_of_getElem? hField] at h

/-- A variant that is written as an array looks at its first item for the kind and at the others by their
places. -/
theorem variantKept_of_item (hKindField : part.field "kind" = .leaf)
    (h : (part.item (before ++ value :: after) before.length).Keeps value value') :
    VariantKept part (.array (before ++ value :: after)) (.array (before ++ value' :: after)) := by
  intro name values hValues
  obtain ⟨tag, rest, kind, hItems, hKind, hName, hRest⟩ := Json.variant?_array.mp hValues
  have hMem := Json.kindOf?_mem hKind
  have hFields : part.fields (before ++ value :: after).head? = kindField :: kind.fields := by
    rw [Part.fields, if_neg (List.ne_nil_of_mem hMem), hItems, List.head?_cons, Option.bind_some, hKind]
    rfl
  cases before with
  | nil =>
      -- The first item gives the kind, so that it cannot change.
      obtain ⟨rfl, rfl⟩ := List.cons.inj hItems
      have hPlace : (part.fields (value :: after).head?)[0]? = some kindField := congrArg (·[0]?) hFields
      rw [List.length_nil, List.nil_append, Part.item_of_getElem? hPlace, kindField, hKindField] at h
      rw [h (isPlain_of_kindOf? hKind)]
      exact ⟨kind, hMem, hName, values, hValues, fieldsKept_refl hRest⟩
  | cons first before =>
      obtain ⟨rfl, rfl⟩ := List.cons.inj hItems
      have hItem (field : Field) (hField : kind.fields[before.length]? = some field) :
          (part.field field.name).Keeps value value' := by
        have hPlace : (part.fields (first :: before ++ value :: after).head?)[(first :: before).length]? =
            some field := (congrArg (·[before.length + 1]?) hFields).trans hField
        rwa [Part.item_of_getElem? hPlace] at h
      obtain ⟨values', hRest', hKept⟩ := fieldsKept_of_item hItem hRest
      exact ⟨kind, hMem, hName, values',
        Json.variant?_array.mpr ⟨first, _, kind, rfl, hKind, hName, hRest'⟩, hKept⟩

end

section

variable {adds : Part → Bool} {limit : Nat} {part : Part} {j j' : Json}

/-- An empty object inside an operator stays empty, if no members are added there: it has none that could
be put in another order, left out or changed, and no field that could be written out. -/
theorem Change.keeps_inOperator (hAdds : adds .inOperator = false)
    (h : Change adds limit .inOperator j j') : Part.inOperator.Keeps j j' := by
  rintro rfl
  generalize hPart : Part.inOperator = part at h
  generalize hEmpty : Json.object [] = j at h
  cases h with
  | reorder h =>
      cases hEmpty
      rw [List.nil_perm.mp h]
  | add hAdd =>
      subst hPart
      exact nomatch hAdds.symm.trans hAdd
  | writeOut hField =>
      subst hPart
      cases hField
  | leaveOut | member => simp at hEmpty
  | item => cases hEmpty

/-- An operator that is written as an object has one member, with nothing in it. -/
theorem members_of_operator {members : List (Str × Json)} {op : BinaryOp}
    (h : BinaryOp.ofJson? (.object members) = some op) :
    ∃ name value, members = [(name, value)] ∧ (value = .null ∨ value = .object []) := by
  unfold BinaryOp.ofJson? at h
  split at h
  · rename_i hMembers
    cases hMembers
  · rename_i name hMembers
    exact ⟨name, .null, Json.object.inj hMembers, .inl rfl⟩
  · rename_i name hMembers
    exact ⟨name, .object [], Json.object.inj hMembers, .inr rfl⟩
  · cases h

/-- An operator stays the operator that it is, if no members are added to its object or inside it. -/
theorem Change.keeps_operator (hAdds : adds .operator = false ∧ adds .inOperator = false)
    (h : Change adds limit .operator j j') : Part.operator.Keeps j j' := by
  intro op hRead
  generalize hPart : Part.operator = part at h
  cases h with
  | @reorder _ _ members members' h =>
      obtain ⟨name, value, rfl, -⟩ := members_of_operator hRead
      rwa [List.perm_singleton.mp h.symm]
  | add hAdd =>
      subst hPart
      exact nomatch hAdds.1.symm.trans hAdd
  | leaveOut hField | writeOut hField =>
      subst hPart
      cases hField
  | @member _ _ before after name value value' h =>
      subst hPart
      obtain ⟨_, _, hMembers, hValue⟩ := members_of_operator hRead
      rcases List.append_eq_singleton_iff.mp hMembers with ⟨rfl, hRest⟩ | ⟨-, hRest⟩
      · cases hRest
        rcases hValue with rfl | rfl
        · cases h.isPlain.1
        · rwa [Change.keeps_inOperator hAdds.2 h rfl]
      · cases hRest
  | item => cases hRead

/-- A change keeps what its part gives for its fields, and so what it reads as. -/
theorem Change.keeps_of_kept (hAdds : adds .operator = false ∧ adds .inOperator = false)
    (h : Change adds limit part j j') (hAt : part.At limit) (hRecord : part.kinds = [] → RecordKept part j j')
    (hVariant : part.field "kind" = .leaf → VariantKept part j j')
    (hList : ∀ p, part = .list p → part.Keeps j j') : part.Keeps j j' := by
  have hThere : j ≠ .null ∧ j' ≠ .null := by
    obtain ⟨hPlain, hPlain'⟩ := h.isPlain
    constructor
    · rintro rfl
      cases hPlain
    · rintro rfl
      cases hPlain'
  cases part with
  | leaf => exact fun hPlain => nomatch h.isPlain.1.symm.trans hPlain
  | operator => exact h.keeps_operator hAdds
  | inOperator => exact h.keeps_inOperator hAdds.2
  | ignored => trivial
  | ty => exact preserved_ty (hRecord rfl)
  | declaration => exact preserved_declaration (hRecord rfl)
  | expr => exact preserved_expr (hVariant rfl)
  | optionalExpr => exact preserved_nullable hThere.1 hThere.2 (preserved_expr (hVariant rfl))
  | stmt => exact preserved_stmt (hVariant rfl)
  | optionalStmt => exact preserved_nullable hThere.1 hThere.2 (preserved_stmt (hVariant rfl))
  | bodyStmt =>
      -- Only here does the reader check nesting and legibility, of all that the statement holds.
      obtain rfl : limit = Stmt.nestingLimit - Stmt.nestingAround := Nat.eq_sub_of_add_eq hAt
      intro s hRead
      unfold Stmt.ofBody? at hRead ⊢
      split_ifs at hRead with hChecks
      simp only [Bool.and_eq_true] at hChecks
      obtain ⟨⟨hNests, hLegible⟩, hNames⟩ := hChecks
      rw [h.nestsWithin hNests, h.legible hLegible, h.namesKind hNames]
      exact preserved_stmt (hVariant rfl) s hRead
  | method => exact preserved_method (hRecord rfl)
  | decl => exact preserved_decl (hRecord rfl)
  | program => exact preserved_program (hRecord rfl)
  | list p => exact hList p rfl

/-- A change of an object keeps what the object reads as, if its members give the same. -/
theorem Change.keeps_of_members {members members' : List (Str × Json)}
    (hAdds : adds .operator = false ∧ adds .inOperator = false)
    (h : Change adds limit part (.object members) (.object members')) (hAt : part.At limit)
    (hKept : MembersKept part members members') : part.Keeps (.object members) (.object members') := by
  refine h.keeps_of_kept hAdds hAt (recordKept_of_membersKept · hKept) (variantKept_of_membersKept · hKept) ?_
  rintro p rfl items hItems
  cases hItems

/-- A change of one item keeps what the array reads as, if the item is kept. -/
theorem Change.keeps_of_item {before after : List Json} {value value' : Json}
    (hAdds : adds .operator = false ∧ adds .inOperator = false)
    (h : Change adds limit part (.array (before ++ value :: after)) (.array (before ++ value' :: after)))
    (hAt : part.At limit) (hItem : (part.item (before ++ value :: after) before.length).Keeps value value') :
    part.Keeps (.array (before ++ value :: after)) (.array (before ++ value' :: after)) := by
  refine h.keeps_of_kept hAdds hAt (recordKept_of_item · hItem) (variantKept_of_item · hItem) ?_
  rintro p rfl items hItems
  cases hItems
  have hSame (l : List Json) : List.Forall₂ p.Keeps l l :=
    List.forall₂_same.mpr fun j _ => Part.keeps_refl p j
  exact ⟨_, rfl, List.rel_append (hSame before) (.cons hItem (hSame after))⟩

/-- What a value reads as, it reads as after a change, by induction on where the change is made. -/
theorem Change.keeps (hAdds : adds .operator = false ∧ adds .inOperator = false)
    (h : Change adds limit part j j') (hAt : part.At limit) : part.Keeps j j' := by
  -- By induction on the way down to the changed place; what stands there is one field of what is around it.
  induction h with
  | reorder h => exact (Change.reorder h).keeps_of_members hAdds hAt (membersKept_of_perm h)
  | add hPart hName hLegible hNests =>
      exact (Change.add hPart hName hLegible hNests).keeps_of_members hAdds hAt (membersKept_of_add hName)
  | leaveOut hField hPresence =>
      exact (Change.leaveOut hField hPresence).keeps_of_members hAdds hAt
        (membersKept_of_leaveOut hField hPresence)
  | writeOut hField hPresence hMissing hNests =>
      exact (Change.writeOut hField hPresence hMissing hNests).keeps_of_members hAdds hAt
        (membersKept_of_writeOut hField hPresence hMissing)
  | member h ih =>
      exact (Change.member h).keeps_of_members hAdds hAt
        (membersKept_of_member (ih (Part.at_member hAt _ _)))
  | item h ih => exact (Change.item h).keeps_of_item hAdds hAt (ih (Part.at_item hAt _ _))

end

/-- One change of a text: of the blanks between its literals, or of the value that it spells. Which
members may be added is left to `adds`. -/
inductive Presented (adds : Part → Bool) (s s' : String) : Prop
  | respaced (h : Json.Respaced s s')
  | changed {j j' : Json} (h : Change adds Stmt.nestingLimit .program j j') (hOld : j.IsText s)
      (hNew : j'.IsText s')

namespace Program

/-- A program is read from a text after one change, as the same program. Any number of changes is one
after another. -/
theorem parse_of_presented {adds : Part → Bool}
    (hAdds : adds .operator = false ∧ adds .inOperator = false) {s s' : String}
    (h : Presented adds s s') {p : Program} (hParse : parse s = .ok p) : parse s' = .ok p := by
  rw [parse_eq_ok] at hParse ⊢
  obtain ⟨j, hText, hProgram⟩ := hParse
  cases h with
  | respaced h => exact ⟨j, Json.isText_of_respaced h hText, hProgram⟩
  | @changed j₀ j' h hOld hNew =>
      obtain rfl := hText.unique hOld
      exact ⟨j', hNew, h.keeps hAdds rfl p hProgram⟩

/-- Reading a program does not depend on how it is presented: blanks, the order of members, members that are
not known, and defaults that are written out or left out, at any places and however they are combined. Only
an object that stands for an operator takes no more members, and neither does the empty object that may
stand inside it. -/
theorem read_of_presented {s s' : String} {p : Program} (hRead : parse s = .ok p)
    (h : Relation.ReflTransGen (Presented fun part => part ≠ .operator ∧ part ≠ .inOperator) s s') :
    parse s' = .ok p := by
  induction h with
  | refl => exact hRead
  | tail _ hLast ih => exact parse_of_presented ⟨rfl, rfl⟩ hLast ih

namespace Twice

/-- `static int twice(int n) { return n + n; }`. -/
def program : Program :=
  ⟨[], ⟨"Twice", none, [], [⟨"twice", true, true, .int, [.plain "n" .int], [],
    [.ret (some (.binary .add n n .int))]⟩]⟩⟩
where
  n : Expr := .ident "n" .int

/-- The sum in the method, with more members behind the operator. -/
def sum (op : Json) (more : List (String × Json)) : Json :=
  variant "Binary" ([("left", n), ("right", n), ("expr_type", Ty.int.toJson), ("op", op)] ++ more)
where
  n : Json := program.n.toJson

/-- The method with that sum, and more members behind those it needs. -/
def method (sum : Json) (more : List (String × Json)) : Json :=
  .ofFields ([("name", .ofString "twice"), ("is_static", .bool true), ("return_type", Ty.int.toJson),
    ("parameters", .array [(Declaration.plain "n" .int).toJson]),
    ("body", .array [variant "Return" [("value", sum)]])] ++ more)

/-- The program with that method. -/
def value (method : Json) : Json :=
  .ofFields [("class", .ofFields [("name", .ofString "Twice"), ("methods", .array [method])])]

variable {adds : Part → Bool} {j j' : Json}

/-- A change of the method is one of the program, three brackets further out. -/
theorem change_method (h : Change adds 124 .method j j') : Change adds 127 .program (value j) (value j') :=
  @Change.member _ 126 .program [] [] (.text "class") _ _
    (@Change.member _ 125 .decl [(.text "name", .ofString "Twice")] [] (.text "methods") _ _
      (@Change.item _ 124 (.list .method) [] [] _ _ h))

theorem change_sum (h : Change adds 121 .optionalExpr j j') :
    Change adds 124 .method (method j []) (method j' []) :=
  @Change.member _ 123 .method [(.text "name", .ofString "twice"), (.text "is_static", .bool true),
      (.text "return_type", Ty.int.toJson),
      (.text "parameters", .array [(Declaration.plain "n" .int).toJson])] [] (.text "body") _ _
    (@Change.item _ 122 (.list .bodyStmt) [] [] _ _
      (@Change.member _ 121 .bodyStmt [(.text "kind", .ofString "Return")] [] (.text "value") _ _ h))

/-- The operator as an object, with more members behind the symbol. -/
def plus (more : List (Str × Json)) : Json := .object ((.text "+", .null) :: more)

theorem change_operator (h : Change adds 120 .operator j j') :
    Change adds 121 .optionalExpr (sum j []) (sum j' []) :=
  @Change.member _ 120 .optionalExpr [(.text "kind", .ofString "Binary"), (.text "left", sum.n),
    (.text "right", sum.n), (.text "expr_type", Ty.int.toJson)] [] (.text "op") _ _ h

/-- The operator as an object with an empty object inside, or one with members. -/
def boxed (members : List (Str × Json)) : Json := .object [(.text "+", .object members)]

theorem change_boxed {members members' : List (Str × Json)}
    (h : Change adds 119 .inOperator (.object members) (.object members')) :
    Change adds 120 .operator (boxed members) (boxed members') :=
  @Change.member _ 119 .operator [] [] (.text "+") _ _ h

/-- A member that is not known, in the sum. It is passed over wherever it stands among the members. -/
theorem change_noted (hAdds : adds .optionalExpr = true) :
    Change adds 121 .optionalExpr (sum (plus []) []) (sum (plus []) [("note", .array [.null])]) :=
  @Change.add _ 120 .optionalExpr [(.text "kind", .ofString "Binary"), (.text "left", sum.n),
    (.text "right", sum.n), (.text "expr_type", Ty.int.toJson), (.text "op", plus [])] [] "note"
    (.array [.null]) hAdds (by decide) rfl rfl

/-- A method is public unless it says otherwise, so saying it changes nothing. -/
theorem change_public : Change adds 124 .method (method j []) (method j [("is_public", .bool true)]) :=
  @Change.writeOut _ 123 .method [(.text "name", .ofString "twice"), (.text "is_static", .bool true),
      (.text "return_type", Ty.int.toJson),
      (.text "parameters", .array [(Declaration.plain "n" .int).toJson]),
      (.text "body", .array [variant "Return" [("value", j)]])] [] ⟨"is_public", .defaulted⟩
    (show _ ∈ Part.method.recordFields by decide) (by decide) (by simp) rfl

/-- The program with the operator written in a certain way. -/
def withOperator (op : Json) : Json := value (method (sum op []) [])

/-- The program with no more members than it needs. -/
def short : Json := withOperator (plus [])

/-- The program with a note in the sum. -/
def noted : Json := value (method (sum (plus []) [("note", .array [.null])]) [])

/-- The program with a note in the sum and a method that says that it is public. -/
def full : Json := value (method (sum (plus []) [("note", .array [.null])]) [("is_public", .bool true)])

theorem parse_short : parse short.compact = .ok program :=
  parse_eq_ok.mpr ⟨short, Json.isText_compact _, rfl⟩

/-- An operator that is written with an empty object inside is read like one that is written with null
there. -/
theorem parse_boxed : parse (withOperator (boxed [])).compact = .ok program :=
  parse_eq_ok.mpr ⟨withOperator (boxed []), Json.isText_compact _, rfl⟩

/-- A change of the operator that leaves no operator behind shows that such changes are not harmless. -/
theorem not_read_of_operator {op op' : Json} (hParse : parse (withOperator op).compact = .ok program)
    (hChange : Change adds 120 .operator op op') (hNone : Program.ofJson? (withOperator op') = none) :
    ¬∀ (s s' : String) (p : Program), parse s = .ok p →
      Relation.ReflTransGen (Presented adds) s s' → parse s' = .ok p := by
  intro hAll
  have hPresented : Presented adds (withOperator op).compact (withOperator op').compact :=
    .changed (change_method (change_sum (change_operator hChange))) (Json.isText_compact _)
      (Json.isText_compact _)
  obtain ⟨j, hText, hProgram⟩ := parse_eq_ok.mp (hAll _ _ _ hParse (.single hPresented))
  rw [hText.unique (Json.isText_compact _), hNone] at hProgram
  cases hProgram

end Twice

/-- A program read from one line, and from many lines with one member more and one default written out. -/
theorem twice_read_of_presented :
    parse Twice.short.compact = .ok Twice.program ∧
      Relation.ReflTransGen (Presented fun part => part ≠ .operator ∧ part ≠ .inOperator)
        Twice.short.compact Twice.full.pretty ∧
      parse Twice.full.pretty = .ok Twice.program := by
  have hNoted : Presented (fun part => part ≠ .operator ∧ part ≠ .inOperator) Twice.short.compact
      Twice.noted.compact :=
    .changed (Twice.change_method (Twice.change_sum (Twice.change_noted rfl))) (Json.isText_compact _)
      (Json.isText_compact _)
  have hPublic : Presented (fun part => part ≠ .operator ∧ part ≠ .inOperator) Twice.noted.compact
      Twice.full.pretty :=
    .changed (Twice.change_method Twice.change_public) (Json.isText_compact _) (Json.isText_pretty _)
  have hBoth := (Relation.ReflTransGen.single hNoted).tail hPublic
  exact ⟨Twice.parse_short, hBoth, read_of_presented Twice.parse_short hBoth⟩

/-- Members cannot be added everywhere: an object that stands for an operator is no longer read once it has
one more member, and neither is one whose empty inner object gets a member. Each of the two is enough. -/
theorem twice_not_read_of_noted_operator :
    (¬∀ (s s' : String) (p : Program), parse s = .ok p →
      Relation.ReflTransGen (Presented fun _ => true) s s' → parse s' = .ok p) ∧
      ∀ adds : Part → Bool, adds .operator = true ∨ adds .inOperator = true →
        ¬∀ (s s' : String) (p : Program), parse s = .ok p →
          Relation.ReflTransGen (Presented adds) s s' → parse s' = .ok p := by
  have hEach (adds : Part → Bool) (hAdds : adds .operator = true ∨ adds .inOperator = true) :
      ¬∀ (s s' : String) (p : Program), parse s = .ok p →
        Relation.ReflTransGen (Presented adds) s s' → parse s' = .ok p := by
    rcases hAdds with hOuter | hInner
    · have hNote : Change adds 120 .operator (Twice.plus []) (Twice.plus [(.text "note", .null)]) :=
        @Change.add _ 119 .operator [(.text "+", .null)] [] "note" .null hOuter (by decide) rfl rfl
      exact Twice.not_read_of_operator Twice.parse_short hNote rfl
    · have hNote : Change adds 119 .inOperator (.object []) (.object [(.text "note", .null)]) :=
        @Change.add _ 118 .inOperator [] [] "note" .null hInner (by decide) rfl rfl
      exact Twice.not_read_of_operator Twice.parse_boxed (Twice.change_boxed hNote) rfl
  exact ⟨hEach _ (.inl rfl), hEach⟩

end Program

end MiniJava.Source
