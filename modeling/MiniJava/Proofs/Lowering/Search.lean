import Mathlib.Order.Bounds.Defs
import MiniJava.Proofs.Lowering.Freshness

/-! The search for a temporary, round by round. Each round takes the next number, and the search ends with
the first number whose temporary neither the method nor its class declares. Numerals of different numbers
differ, so each round but the last one meets a declaration that no other round meets. -/

namespace MiniJava.Lowering

variable {scope : Scope}

namespace Scope

/-- Whether a name is that of a local variable, of a parameter or of a field. These are the names that a
temporary could be confused with. -/
def Declares (scope : Scope) (name : String) : Prop :=
  ∃ d ∈ scope.method.locals ++ scope.method.parameters ++ scope.symbols.fields, d.name = name

/-- Whether a name means no variable of the method and no field, as names are looked up. This asks the
tables and not the lists behind them. -/
def isFree (scope : Scope) (name : String) : Bool :=
  (scope.method.lookup? name).isNone && (scope.symbols.field? name).isNone

theorem mem_takenNames {name : String} : name ∈ scope.takenNames ↔ scope.Declares name :=
  List.mem_map

theorem isFree_iff {name : String} : scope.isFree name = true ↔ name ∉ scope.takenNames := by
  simp [isFree, Source.Signature.lookup?, Source.Signature.localVariable?,
    Source.Signature.parameter?, Source.SymbolTable.field?, Source.declaration?, takenNames, and_assoc]

end Scope

/-- The number that the search finds is the least whose temporary has a free name, among those from its
start on. -/
theorem firstFree_isLeast (taken : List String) (n : Nat) :
    IsLeast {m | n ≤ m ∧ tempName m ∉ taken} (firstFree taken n) := by
  refine ⟨⟨firstFree_ge taken n, tempName_firstFree taken n⟩, fun m hm => ?_⟩
  by_contra hBelow
  exact hm.2 (taken_of_lt_firstFree hm.1 (Nat.lt_of_not_le hBelow))

/-- A search that meets a declared name goes on as one that starts behind it, although the name is struck
off the list then. -/
theorem firstFree_succ {taken : List String} {n : Nat} (h : tempName n ∈ taken) :
    firstFree taken (n + 1) = firstFree taken n := by
  have hSame : {m | n + 1 ≤ m ∧ tempName m ∉ taken} = {m | n ≤ m ∧ tempName m ∉ taken} := by
    ext m
    refine ⟨fun hm => ⟨Nat.le_of_succ_le hm.1, hm.2⟩, fun hm => ⟨Nat.lt_of_le_of_ne hm.1 ?_, hm.2⟩⟩
    rintro rfl
    exact hm.2 h
  have hLater := firstFree_isLeast taken (n + 1)
  rw [hSame] at hLater
  exact hLater.unique (firstFree_isLeast taken n)

/-- No more numbers are passed over than names are taken, because the names of different numbers
differ. -/
theorem firstFree_le (taken : List String) (n : Nat) : firstFree taken n ≤ n + taken.length := by
  induction taken, n using firstFree.induct with
  | case1 taken n hTaken ih =>
      have hLength := List.length_erase_of_mem hTaken
      have hPos := List.length_pos_of_mem hTaken
      rw [firstFree, if_pos hTaken]
      omega
  | case2 taken n hFree =>
      rw [firstFree_of_free hFree]
      omega

/-- With no names to avoid, the next number is taken as it is. -/
theorem newTemp_nil_run (fresh : Fresh) : (newTemp []).run fresh =
    .ok (tempName fresh.nextTemp) { fresh with nextTemp := fresh.nextTemp + 1 } := by
  simp [newTemp, EStateM.run_modifyGet, firstFree_of_free]

/-- The search, given up after so many rounds: takes numbers until one makes a free name. Each round
takes one number, whether or not its name is free. -/
def Scope.search (scope : Scope) : Nat → Lower (Option String)
  | 0 => return none
  | rounds + 1 => do
      let name ← Lowering.newTemp []
      if scope.isFree name then return some name else scope.search rounds

/-- The search comes to the least free number, unless its rounds end before. It takes every number on the
way. -/
theorem search_run (rounds : Nat) (fresh : Fresh) :
    (scope.search rounds).run fresh =
      let n := firstFree scope.takenNames fresh.nextTemp
      if n < fresh.nextTemp + rounds then .ok (some (tempName n)) { fresh with nextTemp := n + 1 }
      else .ok none { fresh with nextTemp := fresh.nextTemp + rounds } := by
  induction rounds generalizing fresh with
  | zero =>
      have hFrom := firstFree_ge scope.takenNames fresh.nextTemp
      exact (if_neg (by omega)).symm
  | succ rounds ih =>
      rw [Scope.search, EStateM.run_bind, newTemp_nil_run]
      by_cases hTaken : tempName fresh.nextTemp ∈ scope.takenNames
      · have hNext : ¬scope.isFree (tempName fresh.nextTemp) = true :=
          fun h => Scope.isFree_iff.mp h hTaken
        simp only [if_neg hNext, ih, firstFree_succ hTaken, Nat.add_right_comm _ 1, Nat.add_assoc]
      · simp [Scope.isFree_iff.mpr hTaken, firstFree_of_free hTaken, EStateM.run_pure]

/-- A new temporary has the least number, from the next one on, that makes a name which neither the method
nor its class declares; the search for it is over after one round for each declaration and one more, and
the labels keep their numbers. -/
theorem newTemp_search (scope : Scope) (fresh : Fresh) :
    ∃ n, IsLeast {m | fresh.nextTemp ≤ m ∧ ¬scope.Declares (tempName m)} n ∧
      scope.newTemp.run fresh = .ok (tempName n) { fresh with nextTemp := n + 1 } ∧
      (scope.search (scope.method.locals.length + scope.method.parameters.length +
          scope.symbols.fields.length + 1)).run fresh =
        .ok (some (tempName n)) { fresh with nextTemp := n + 1 } := by
  refine ⟨firstFree scope.takenNames fresh.nextTemp, ?_, newTemp_run scope fresh, ?_⟩
  · simpa only [Scope.mem_takenNames] using firstFree_isLeast scope.takenNames fresh.nextTemp
  · have hBound := firstFree_le scope.takenNames fresh.nextTemp
    have hLength : scope.takenNames.length = scope.method.locals.length +
        scope.method.parameters.length + scope.symbols.fields.length := by
      simp [Scope.takenNames, Nat.add_assoc]
    rw [search_run]
    exact if_pos (by omega)

/-- Of a local `tmp5`, a parameter `tmp05` and a field `tmp6`, the search from 5 on meets two. -/
example :
    let method : Source.Signature := {
      name := "run"
      returnType := .void
      parameters := [.plain "tmp05" .int]
      locals := [.plain "tmp5" .int]
      isStatic := false
      isPublic := true }
    let symbols := { Source.SymbolTable.empty "Box" with fields := [.plain "tmp6" .int] }
    (Scope.search ⟨symbols, method⟩ 3).run ⟨5, 2⟩ = .ok (some "tmp7") ⟨8, 2⟩ := by
  cbv

end MiniJava.Lowering
