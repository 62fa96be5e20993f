import Mathlib.Data.List.Forall2
import MiniJava.Json.Record

/-! What a record or a variant reads does not depend on what its parts are read as. -/

namespace MiniJava.Json

variable {α β γ : Type}

/-- All results are there, one for each item, if and only if the list of results is. -/
theorem mapM_eq_some {f : α → Option β} {l : List α} {bs : List β} :
    l.mapM f = some bs ↔ List.Forall₂ (fun a b => f a = some b) l bs := by
  induction l generalizing bs with
  | nil => simp [eq_comm]
  | cons a l ih =>
      simp only [List.mapM_cons, Option.bind_eq_bind, Option.bind_eq_some_iff, Option.pure_def,
        Option.some.injEq, ih, List.forall₂_cons_left_iff]
      constructor
      · rintro ⟨b, hHead, rest, hTail, rfl⟩
        exact ⟨b, rest, hHead, hTail, rfl⟩
      · rintro ⟨b, rest, hHead, hTail, rfl⟩
        exact ⟨b, hHead, rest, hTail, rfl⟩

/-- Results that are changed afterwards, one by one, are there exactly if the results are. -/
theorem mapM_map_option (g : β → γ) (h : α → Option β) (l : List α) :
    l.mapM (fun a => (h a).map g) = (l.mapM h).map (List.map g) := by
  induction l with
  | nil => rfl
  | cons a l ih =>
      simp only [List.mapM_cons, ih, Option.bind_eq_bind, Option.pure_def]
      cases h a with
      | none => rfl
      | some b => cases l.mapM h <;> rfl

/-- What is there is not read as missing. -/
theorem nullable?_of_ne_null {f : Json → Option α} {j : Json} (h : j ≠ .null) :
    j.nullable? f = (f j).map some := by
  cases j with
  | null => exact (h rfl).elim
  | _ => rfl

section

variable (f : α → β)

theorem named?_map (members : List (Str × α)) :
    named? (members.map fun m => (m.1, f m.2)) =
      (named? members).map (List.map fun m => (m.1, f m.2)) := by
  rw [named?, named?, List.mapM_map, ← mapM_map_option]
  congr 1
  funext m
  obtain ⟨name, a⟩ := m
  cases name <;> rfl

theorem memberOf?_map (members : List (String × α)) (field : Field) :
    memberOf? (members.map fun m => (m.1, f m.2)) field =
      (memberOf? members field).map (Option.map f) := by
  have hFilter : (members.map fun m => (m.1, f m.2)).filter (·.1 = field.name) =
      (members.filter (·.1 = field.name)).map fun m => (m.1, f m.2) := List.filter_map
  unfold memberOf?
  rw [hFilter]
  generalize members.filter (·.1 = field.name) = found
  rcases found with _ | ⟨_, _ | ⟨_, _⟩⟩
  · rw [List.map_nil]
    cases field.presence <;> rfl
  · rfl
  · rfl

theorem fieldsOfMembers?_map (fields : List Field) (members : List (String × α)) :
    fieldsOfMembers? fields (members.map fun m => (m.1, f m.2)) =
      (fieldsOfMembers? fields members).map (List.map (Option.map f)) := by
  rw [fieldsOfMembers?, fieldsOfMembers?, ← mapM_map_option]
  exact congrArg (fields.mapM ·) (funext (memberOf?_map f members))

theorem fieldsOfItems?_map (fields : List Field) (items : List α) :
    fieldsOfItems? fields (items.map f) =
      (fieldsOfItems? fields items).map (List.map (Option.map f)) := by
  induction fields generalizing items with
  | nil => cases items <;> rfl
  | cons field fields ih =>
      cases items with
      | nil =>
          have hNil := ih []
          rw [List.map_nil] at hNil ⊢
          rw [fieldsOfItems?, fieldsOfItems?, hNil]
          split
          · cases fieldsOfItems? fields ([] : List α) <;> rfl
          · rfl
      | cons a items =>
          rw [List.map_cons, fieldsOfItems?, fieldsOfItems?, ih]
          cases fieldsOfItems? fields items <;> rfl

variable (json : β → Json)

/-- A variant can be taken apart before its values are read. Only the tag is looked at, as the value that
it is. -/
theorem variantOfMembers?_map (kinds : List Kind) (members : List (Str × α)) :
    variantOfMembers? kinds json (members.map fun m => (m.1, f m.2)) =
      (variantOfMembers? kinds (json ∘ f) members).map fun v => (v.1, v.2.map (Option.map f)) := by
  rw [variantOfMembers?, variantOfMembers?, named?_map]
  cases named? members with
  | none => rfl
  | some named =>
      have hFilter : (named.map fun m => (m.1, f m.2)).filter (·.1 ≠ "kind") =
          (named.filter (·.1 ≠ "kind")).map fun m => (m.1, f m.2) := List.filter_map
      simp only [Option.map_some, Option.bind_eq_bind, Option.bind_some, memberOf?_map, hFilter,
        fieldsOfMembers?_map]
      rcases memberOf? named ⟨"kind", .required⟩ with _ | _ | tag
      · rfl
      · rfl
      · simp only [Option.map_some, Option.bind_some, Function.comp_apply, Option.pure_def]
        cases kindOf? kinds (json (f tag)) with
        | none => rfl
        | some kind =>
            simp only [Option.bind_some]
            cases fieldsOfMembers? kind.fields (named.filter (·.1 ≠ "kind")) <;> rfl

theorem variantOfItems?_map (kinds : List Kind) (items : List α) :
    variantOfItems? kinds json (items.map f) =
      (variantOfItems? kinds (json ∘ f) items).map fun v => (v.1, v.2.map (Option.map f)) := by
  cases items with
  | nil => rfl
  | cons tag items =>
      simp only [List.map_cons, variantOfItems?, fieldsOfItems?_map, Function.comp_apply,
        Option.bind_eq_bind, Option.pure_def]
      cases kindOf? kinds (json (f tag)) with
      | none => rfl
      | some kind =>
          simp only [Option.bind_some]
          cases fieldsOfItems? kind.fields items <;> rfl

end

/-- The kind and the fields of a variant, whether it is written as an object or as an array. -/
def variant? (kinds : List Kind) : Json → Option (String × List (Option Json))
  | .object members => variantOfMembers? kinds id members
  | .array items => variantOfItems? kinds id items
  | _ => none

section

variable {members : List (String × α)}

/-- A member of a name of its own is found, with its value and wherever it stands. -/
theorem memberOf?_of_mem (hNodup : (members.map (·.1)).Nodup) {m : String × α} (h : m ∈ members)
    (presence : Presence) : memberOf? members ⟨m.1, presence⟩ = some (some m.2) := by
  have hFilter : members.filter (·.1 = m.1) = [m] := by
    induction members with
    | nil => cases h
    | cons first rest ih =>
        obtain ⟨hFresh, hRest⟩ := List.nodup_cons.mp hNodup
        have hOther {n : String × α} (hn : n ∈ rest) : n.1 ≠ first.1 :=
          fun hSame => hFresh (List.mem_map.mpr ⟨n, hn, hSame⟩)
        rcases List.mem_cons.mp h with rfl | hMem
        · rw [List.filter_cons_of_pos (by simp), List.filter_eq_nil_iff.mpr]
          intro n hn
          simp [hOther hn]
        · rw [List.filter_cons_of_neg (by simp [(hOther hMem).symm]), ih hRest hMem]
  rw [memberOf?, hFilter]

/-- Members that have the names of the fields, each once, are the values of the fields. -/
theorem fieldsOfMembers?_of_names {fields : List Field}
    (hNames : fields.map (·.name) = members.map (·.1)) (hNodup : (members.map (·.1)).Nodup) :
    fieldsOfMembers? fields members = some (members.map fun m => some m.2) := by
  have hAll (found : List (String × α)) (hFound : found ⊆ members) (fields : List Field)
      (hNames : fields.map (·.name) = found.map (·.1)) :
      fields.mapM (memberOf? members) = some (found.map fun m => some m.2) := by
    induction fields generalizing found with
    | nil =>
        obtain rfl := List.map_eq_nil_iff.mp hNames.symm
        rfl
    | cons field fields ih =>
        obtain ⟨m, rest, rfl, hHead, hRest⟩ := List.map_eq_cons_iff.mp hNames.symm
        obtain ⟨hMem, hSubset⟩ := List.cons_subset.mp hFound
        have hField : memberOf? members field = some (some m.2) := by
          obtain ⟨name, presence⟩ := field
          obtain rfl : m.1 = name := hHead
          exact memberOf?_of_mem hNodup hMem presence
        rw [List.mapM_cons, hField, ih rest hSubset hRest.symm]
        rfl
  exact hAll members (List.Subset.refl _) fields hNames

end

theorem named?_texts (members : List (String × α)) :
    named? (members.map fun (name, value) => (.text name, value)) = some members := by
  induction members with
  | nil => rfl
  | cons m members ih =>
      rw [named?] at ih ⊢
      rw [List.map_cons, List.mapM_cons, ih]
      rfl

theorem record?_ofFields {fields : List Field} {members : List (String × Json)}
    (hNames : fields.map (·.name) = members.map (·.1)) (hNodup : (members.map (·.1)).Nodup) :
    record? fields (.ofFields members) = some (members.map fun m => some m.2) := by
  rw [ofFields, record?, named?_texts, Option.bind_some, fieldsOfMembers?_of_names hNames hNodup]

/-- What is written for a variant reads back as its kind and its values. The name of the member with the
kind must not be the name of a field. -/
theorem variant?_ofFields {kinds : List Kind} {kind : Kind} {tag : Json}
    {members : List (String × Json)} (hKind : kindOf? kinds tag = some kind)
    (hNames : kind.fields.map (·.name) = members.map (·.1))
    (hNodup : ("kind" :: members.map (·.1)).Nodup) :
    variant? kinds (.ofFields (("kind", tag) :: members)) =
      some (kind.name, members.map fun m => some m.2) := by
  obtain ⟨hFresh, hRest⟩ := List.nodup_cons.mp hNodup
  have hTag : memberOf? (("kind", tag) :: members) ⟨"kind", .required⟩ = some (some tag) :=
    @memberOf?_of_mem _ (("kind", tag) :: members) hNodup _ List.mem_cons_self .required
  have hFilter : (("kind", tag) :: members).filter (·.1 ≠ "kind") = members := by
    rw [List.filter_cons_of_neg (by simp), List.filter_eq_self]
    intro m hm
    have hOther : m.1 ≠ "kind" := fun hSame => hFresh (List.mem_map.mpr ⟨m, hm, hSame⟩)
    simp [hOther]
  rw [ofFields, variant?, variantOfMembers?, named?_texts]
  simp only [Option.bind_eq_bind, Option.bind_some, hTag, id_eq, hKind, hFilter,
    fieldsOfMembers?_of_names hNames hRest, Option.pure_def]

end MiniJava.Json
