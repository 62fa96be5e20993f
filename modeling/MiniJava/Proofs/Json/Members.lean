import MiniJava.Proofs.Json.Records

/-! What an object or an array gives for the fields of a record or of a variant, with no regard to the
order in which members stand and to members of other names. -/

namespace MiniJava.Json

variable {members members' : List (Str × Json)} {fields : List Field} {field : Field}

/-- The names of all members spell a text. An object of which this does not hold is no record. -/
def Named (members : List (Str × Json)) : Prop := ∀ m ∈ members, m.1.text?.isSome = true

/-- The value of a field among members, if the field is written at most once. It is what reading a record
asks of an object. -/
def found? (members : List (Str × Json)) (field : Field) : Option (Option Json) :=
  match members.filter (·.1 = .text field.name) with
  | [] => if field.presence = .required then none else some none
  | [(_, value)] => some (some value)
  | _ :: _ :: _ => none

/-- Members with the names that they spell. Each keeps its place and its value. -/
theorem named?_eq_some {α : Type} {members : List (Str × α)} {named : List (String × α)} :
    named? members = some named ↔ members = named.map fun m => (.text m.1, m.2) := by
  constructor
  · intro h
    induction members generalizing named with
    | nil =>
        cases h
        rfl
    | cons m rest ih =>
        obtain ⟨name, value⟩ := m
        cases name with
        | text name =>
            rw [named?, List.mapM_cons] at h
            obtain ⟨_, ⟨⟩, hRest⟩ := Option.bind_eq_some_iff.mp h
            obtain ⟨tail, hTail, hNamed⟩ := Option.bind_eq_some_iff.mp hRest
            cases hNamed
            rw [List.map_cons, ← ih hTail]
        | unpaired => cases h
  · rintro rfl
    exact named?_texts named

/-- Members have names that spell texts exactly if they can be listed with these texts. -/
theorem named_iff : Named members ↔ ∃ named, named? members = some named := by
  constructor
  · intro h
    induction members with
    | nil => exact ⟨[], rfl⟩
    | cons m rest ih =>
        obtain ⟨hFirst, hRest⟩ := List.forall_mem_cons.mp h
        obtain ⟨named, hNamed⟩ := ih hRest
        obtain ⟨name, hName⟩ := Option.isSome_iff_exists.mp hFirst
        refine ⟨(name, m.2) :: named, named?_eq_some.mpr ?_⟩
        obtain ⟨name', value⟩ := m
        cases name' with
        | text _ =>
            cases hName
            rw [List.map_cons, ← named?_eq_some.mp hNamed]
        | unpaired => cases hName
  · rintro ⟨named, hNamed⟩
    rw [named?_eq_some.mp hNamed]
    exact List.forall_mem_map.mpr fun m _ => rfl

/-- Looking for the member of a field is counting the members of its name, which is said without an
order. -/
theorem memberOf?_eq (named : List (String × Json)) (field : Field) :
    memberOf? named field = found? (named.map fun m => (.text m.1, m.2)) field := by
  have hFilter : (named.map fun m => (Str.text m.1, m.2)).filter (·.1 = .text field.name) =
      (named.filter (·.1 = field.name)).map fun m => (.text m.1, m.2) := by
    rw [List.filter_map]
    congr 2
    funext m
    simp
  rw [memberOf?, found?, hFilter]
  generalize named.filter (·.1 = field.name) = found
  rcases found with _ | ⟨_, _ | ⟨_, _⟩⟩ <;> rfl

/-- The fields of a record are looked for one by one, independently of each other. -/
theorem fieldsOfMembers?_eq (named : List (String × Json)) :
    fieldsOfMembers? fields named =
      fields.mapM (found? (named.map fun m => (.text m.1, m.2))) :=
  congrArg (fields.mapM ·) (funext (memberOf?_eq named))

/-- An object reads as a record if its names spell texts and each field is found; members of other names
are not asked for anything. -/
theorem record?_object {values : List (Option Json)} :
    record? fields (.object members) = some values ↔
      Named members ∧ fields.mapM (found? members) = some values := by
  rw [record?, Option.bind_eq_some_iff, named_iff]
  constructor
  · rintro ⟨named, hNamed, hValues⟩
    rw [fieldsOfMembers?_eq, ← named?_eq_some.mp hNamed] at hValues
    exact ⟨⟨named, hNamed⟩, hValues⟩
  · rintro ⟨⟨named, hNamed⟩, hValues⟩
    refine ⟨named, hNamed, ?_⟩
    rw [fieldsOfMembers?_eq, ← named?_eq_some.mp hNamed]
    exact hValues

/-- The field with the kind of a variant, which must be there. -/
def kindField : Field := ⟨"kind", .required⟩

/-- The member with the kind is none of the fields. -/
theorem memberOf?_filter (h : field.name ≠ "kind") (named : List (String × Json)) :
    memberOf? (named.filter (·.1 ≠ "kind")) field = memberOf? named field := by
  have hFilter : (named.filter (·.1 ≠ "kind")).filter (·.1 = field.name) =
      named.filter (·.1 = field.name) := by
    rw [List.filter_filter]
    congr 1
    funext m
    by_cases hName : m.1 = field.name <;> simp [hName, h]
  rw [memberOf?, hFilter, memberOf?]

/-- Taking the kind out of the members of a variant leaves its fields as they are. -/
theorem fieldsOfMembers?_filter (h : ∀ f ∈ fields, f.name ≠ "kind") (named : List (String × Json)) :
    fieldsOfMembers? fields (named.filter (·.1 ≠ "kind")) = fieldsOfMembers? fields named := by
  induction fields with
  | nil => rfl
  | cons field fields ih =>
      obtain ⟨hField, hFields⟩ := List.forall_mem_cons.mp h
      have hRest := ih hFields
      rw [fieldsOfMembers?, fieldsOfMembers?] at hRest ⊢
      rw [List.mapM_cons, List.mapM_cons, memberOf?_filter hField, hRest]

theorem kindOf?_mem {kinds : List Kind} {tag : Json} {kind : Kind} (h : kindOf? kinds tag = some kind) :
    kind ∈ kinds := by
  unfold kindOf? at h
  split at h
  · obtain ⟨name, -, hFind⟩ := Option.bind_eq_some_iff.mp h
    exact List.mem_of_find?_eq_some hFind
  · exact List.mem_of_getElem? h
  · cases h

/-- An object reads as a variant by the member with its kind and by the fields of that kind, in whatever
order these stand. -/
theorem variant?_object {kinds : List Kind}
    (hKinds : ∀ kind ∈ kinds, ∀ f ∈ kind.fields, f.name ≠ "kind") {name : String}
    {values : List (Option Json)} :
    variant? kinds (.object members) = some (name, values) ↔
      Named members ∧ ∃ tag kind, found? members kindField = some (some tag) ∧
        kindOf? kinds tag = some kind ∧ kind.name = name ∧
          kind.fields.mapM (found? members) = some values := by
  have hRead {named : List (String × Json)} (hNamed : named? members = some named) :
      variant? kinds (.object members) = some (name, values) ↔
        ∃ tag kind, found? members kindField = some (some tag) ∧ kindOf? kinds tag = some kind ∧
          kind.name = name ∧ kind.fields.mapM (found? members) = some values := by
    have hMembers (field : Field) : memberOf? named field = found? members field := by
      rw [memberOf?_eq, ← named?_eq_some.mp hNamed]
    have hFields {kind : Kind} (hKind : kind ∈ kinds) :
        fieldsOfMembers? kind.fields (named.filter (·.1 ≠ "kind")) =
          kind.fields.mapM (found? members) := by
      rw [fieldsOfMembers?_filter (hKinds kind hKind), fieldsOfMembers?_eq,
        ← named?_eq_some.mp hNamed]
    rw [variant?, variantOfMembers?, hNamed]
    simp only [Option.bind_eq_bind, Option.bind_some, hMembers, id_eq, Option.bind_eq_some_iff,
      Option.pure_def]
    constructor
    · rintro ⟨tag?, hTag, hRest⟩
      cases tag? with
      | none => cases hRest
      | some tag =>
          simp only [Option.bind_eq_some_iff, Option.some.injEq, Prod.mk.injEq] at hRest
          obtain ⟨kind, hKind, _, hValues, hName, rfl⟩ := hRest
          rw [hFields (kindOf?_mem hKind)] at hValues
          exact ⟨tag, kind, hTag, hKind, hName, hValues⟩
    · rintro ⟨tag, kind, hTag, hKind, hName, hValues⟩
      refine ⟨some tag, hTag, ?_⟩
      simp only [Option.bind_eq_some_iff, Option.some.injEq, Prod.mk.injEq]
      exact ⟨kind, hKind, values, (hFields (kindOf?_mem hKind)).trans hValues, hName, rfl⟩
  constructor
  · intro h
    have hNamed : ∃ named, named? members = some named := by
      rw [variant?, variantOfMembers?] at h
      obtain ⟨named, hNamed, -⟩ := Option.bind_eq_some_iff.mp h
      exact ⟨named, hNamed⟩
    obtain ⟨named, hNamed⟩ := hNamed
    exact ⟨named_iff.mpr ⟨named, hNamed⟩, (hRead hNamed).mp h⟩
  · rintro ⟨hNamed, hRest⟩
    obtain ⟨named, hNamed⟩ := named_iff.mp hNamed
    exact (hRead hNamed).mpr hRest

/-- An array reads as a variant by its first item, the tag, and the rest in the order of the fields. -/
theorem variant?_array {kinds : List Kind} {items : List Json} {name : String}
    {values : List (Option Json)} :
    variant? kinds (.array items) = some (name, values) ↔
      ∃ tag rest kind, items = tag :: rest ∧ kindOf? kinds tag = some kind ∧ kind.name = name ∧
        fieldsOfItems? kind.fields rest = some values := by
  cases items with
  | nil =>
      refine ⟨nofun, ?_⟩
      rintro ⟨_, _, _, ⟨⟩, _⟩
  | cons tag rest =>
      rw [variant?, variantOfItems?]
      simp only [id_eq, Option.bind_eq_bind, Option.bind_eq_some_iff, Option.pure_def,
        Option.some.injEq, Prod.mk.injEq, List.cons.injEq]
      constructor
      · rintro ⟨kind, hKind, _, hValues, hName, rfl⟩
        exact ⟨tag, rest, kind, ⟨rfl, rfl⟩, hKind, hName, hValues⟩
      · rintro ⟨_, _, kind, ⟨rfl, rfl⟩, hKind, hName, hValues⟩
        exact ⟨kind, hKind, _, hValues, hName, rfl⟩

/-- A field is found that is required. -/
theorem isSome_of_found? {value : Option Json} (h : found? members field = some value)
    (hPresence : field.presence = .required) : value.isSome = true := by
  unfold found? at h
  split at h
  · rw [if_pos hPresence] at h
    cases h
  · cases h
    rfl
  · cases h

theorem found?_perm (h : members.Perm members') (field : Field) :
    found? members' field = found? members field := by
  have hFilter := h.filter (·.1 = .text field.name)
  rw [found?, found?]
  generalize members.filter (·.1 = .text field.name) = l at hFilter
  generalize members'.filter (·.1 = .text field.name) = l' at hFilter
  rcases l with _ | ⟨m, _ | ⟨n, rest⟩⟩
  · rw [List.nil_perm.mp hFilter]
  · rw [List.singleton_perm.mp hFilter]
  · have hLength := hFilter.length_eq
    rcases l' with _ | ⟨m', _ | ⟨n', rest'⟩⟩
    · simp at hLength
    · simp at hLength
    · rfl

section

variable {before after : List (Str × Json)} {name : Str} {value : Json} {found : Option Json}

/-- A member of another name does not matter. -/
theorem found?_of_ne (h : name ≠ .text field.name) :
    found? (before ++ (name, value) :: after) field = found? (before ++ after) field := by
  rw [found?, found?, List.filter_append, List.filter_append,
    List.filter_cons_of_neg (by simpa using h)]

/-- Where a member of the name of the field is, no other member has that name. Otherwise the object would
be refused. -/
theorem found?_eq_some (h : found? (before ++ (.text field.name, value) :: after) field = some found) :
    found = some value ∧ ∀ m ∈ before ++ after, m.1 ≠ .text field.name := by
  have hFilter : (before ++ (Str.text field.name, value) :: after).filter (·.1 = .text field.name) =
      before.filter (·.1 = .text field.name) ++
        (.text field.name, value) :: after.filter (·.1 = .text field.name) := by
    rw [List.filter_append, List.filter_cons_of_pos (by simp)]
  have hNone {l : List (Str × Json)} (hl : l.filter (·.1 = .text field.name) = []) :
      ∀ m ∈ l, m.1 ≠ .text field.name := fun m hm hName =>
    List.filter_eq_nil_iff.mp hl m hm (decide_eq_true hName)
  rw [found?, hFilter] at h
  cases hBefore : before.filter (·.1 = .text field.name) with
  | nil =>
      cases hAfter : after.filter (·.1 = .text field.name) with
      | nil =>
          rw [hBefore, hAfter] at h
          cases h
          exact ⟨rfl, List.forall_mem_append.mpr ⟨hNone hBefore, hNone hAfter⟩⟩
      | cons =>
          rw [hBefore, hAfter] at h
          cases h
  | cons m rest =>
      rw [hBefore] at h
      cases rest <;> cases h

theorem found?_of_unique (h : ∀ m ∈ before ++ after, m.1 ≠ .text field.name) :
    found? (before ++ (.text field.name, value) :: after) field = some (some value) := by
  have hNone {l : List (Str × Json)} (hl : ∀ m ∈ l, m.1 ≠ .text field.name) :
      l.filter (·.1 = .text field.name) = [] :=
    List.filter_eq_nil_iff.mpr fun m hm => by simpa using hl m hm
  obtain ⟨hBefore, hAfter⟩ := List.forall_mem_append.mp h
  rw [found?, List.filter_append, List.filter_cons_of_pos (by simp), hNone hBefore, hNone hAfter]
  rfl

/-- A field without a member is missing, which is an error if it is required. Other members do not matter
to it. -/
theorem found?_of_missing (h : ∀ m ∈ members, m.1 ≠ .text field.name) :
    found? members field = if field.presence = .required then none else some none := by
  have hNone : members.filter (·.1 = .text field.name) = [] :=
    List.filter_eq_nil_iff.mpr fun m hm => by simpa using h m hm
  rw [found?, hNone]

end

end MiniJava.Json
