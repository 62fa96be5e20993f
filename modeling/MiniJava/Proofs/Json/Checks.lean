import MiniJava.Json.Record
import MiniJava.Proofs.Json.Grammar

/-! What it takes for a value to be legible and to nest within a limit, part by part. -/

namespace MiniJava.Json

variable {limit : Nat} {items : List Json} {members : List (Str × Json)}

theorem legible_array : (array items).legible = true ↔ ∀ j ∈ items, j.legible = true := by
  rw [legible]
  induction items with
  | nil => simp [legibleItems]
  | cons j rest ih => simp [legibleItems, ih]

/-- An object can be shown if its values can and each of its names spells a text. -/
theorem legible_object : (object members).legible = true ↔
    ∀ m ∈ members, m.1.text?.isSome = true ∧ m.2.legible = true := by
  rw [legible]
  induction members with
  | nil => simp [legibleMembers]
  | cons m rest ih => simp [legibleMembers, ih, and_assoc]

/-- An array is one level of its own, and its items have one level less left. -/
theorem nestsWithin_array :
    (array items).nestsWithin (limit + 1) = true ↔ ∀ j ∈ items, j.nestsWithin limit = true := by
  rw [nestsWithin]
  induction items with
  | nil => simp [itemsNestWithin]
  | cons j rest ih => simp [itemsNestWithin, ih]

/-- An object is one level of its own, and its values have one level less left; names take none. -/
theorem nestsWithin_object :
    (object members).nestsWithin (limit + 1) = true ↔ ∀ m ∈ members, m.2.nestsWithin limit = true := by
  rw [nestsWithin]
  induction members with
  | nil => simp [membersNestWithin]
  | cons m rest ih => simp [membersNestWithin, ih]

/-- The names of a record spell texts, so that only the values have to be looked at. -/
theorem legible_ofFields {fields : List (String × Json)} :
    (ofFields fields).legible = true ↔ ∀ f ∈ fields, f.2.legible = true := by
  rw [ofFields, legible_object, List.forall_mem_map]
  simp [Str.text?]

theorem nestsWithin_ofFields {fields : List (String × Json)} :
    (ofFields fields).nestsWithin (limit + 1) = true ↔ ∀ f ∈ fields, f.2.nestsWithin limit = true := by
  rw [ofFields, nestsWithin_object, List.forall_mem_map]

theorem nestsWithin_ofList {α : Type} {f : α → Json} {l : List α} :
    (ofList f l).nestsWithin (limit + 1) = true ↔ ∀ a ∈ l, (f a).nestsWithin limit = true := by
  rw [ofList, nestsWithin_array, List.forall_mem_map]

theorem leadingDigits_dropped (value : Nat) (chars : List Char) :
    (Numeral.leadingDigits value chars).2 ≤ chars.length := by
  induction chars generalizing value with
  | nil => exact Nat.le_refl 0
  | cons c rest ih =>
      rw [Numeral.leadingDigits]
      split
      · exact Nat.le_succ_of_le (ih _)
      · exact Nat.le_refl _

/-- An integer of few digits fits. The integers of programs have ten digits at most. -/
theorem fitsDouble_ofInt {n : Int} (h : n.natAbs < Nat.pow 10 20) : (Numeral.ofInt n).fitsDouble = true := by
  have hLength : (Nat.toDigits 10 n.natAbs).length ≤ 20 :=
    (Nat.length_toDigits_le_iff (by decide) (by decide)).mpr h
  have hDropped := leadingDigits_dropped 0 (Nat.toDigits 10 n.natAbs)
  have hSmall : ((Numeral.leadingDigits 0 (Nat.toDigits 10 n.natAbs)).2 : Int) < 280 := by omega
  rw [Numeral.fitsDouble]
  simp only [Numeral.ofInt, Option.getD_none, Int.zero_add, hSmall, decide_true, Bool.or_true,
    Bool.true_or]

end MiniJava.Json
