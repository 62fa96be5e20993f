import MiniJava.Proofs.Code.UnitText
import MiniJava.Proofs.Lowering.Forms

/-! The text of lowered code determines the code. -/

namespace MiniJava.Lowering

open Code (ClassUnit Vocabulary)
open Source (Declaration Expr MethodDecl Program)

/-- Classes that print the same are the same, with everything that stands in them. The words `i32`, `bool`,
`String`, `V` and `array` mean types in the text, so that no class may have them for a name. -/
theorem lowered_text_injective {constructor constructor' : Bool} {program program' : Program}
    {unit unit' : ClassUnit} (hReadable : program.Within .readable)
    (hReadable' : program'.Within .readable) (hLowered : ofProgram constructor program = .ok unit)
    (hLowered' : ofProgram constructor' program' = .ok unit') (hText : unit.text = unit'.text) :
    unit = unit' :=
  ClassUnit.text_injective (formed_ofProgram hReadable hLowered)
    (formed_ofProgram hReadable' hLowered') hText

namespace Clamp

/-- The field `k`, by its name. -/
def k : Expr := .ident "k" .int

/-- `xs[0]`. -/
def first : Expr := .index (.ident "xs" .intArray) (.intLiteral 0) .int

/-- `public int clamp(int[] xs, Clamp other) { if (k < xs[0]) k = 0; else k = xs[0]; return result; }`. -/
def source (result : Expr) : MethodDecl where
  name := "clamp"
  isPublic := true
  isStatic := false
  returnType := .int
  parameters := [.plain "xs" .intArray, .plain "other" (.object "Clamp")]
  locals := []
  body := [
    .cond (.binary .less k first .boolean) (.assign k (.intLiteral 0)) (some (.assign k first)),
    .ret (some result)]

/-- The method in a class with the field `k`, which imports `math.Limits`. -/
def program (result : Expr) : Program :=
  ⟨[["math", "Limits"]], ⟨"Clamp", some "Base", [.plain "k" .int], [source result]⟩⟩

theorem k_within : k.Within .readable := ⟨show Code.isName "k" = true by decide, rfl⟩

theorem first_within : first.Within .readable :=
  ⟨⟨show Code.isName "xs" = true by decide, rfl⟩, trivial, rfl⟩

/-- Every name in the program can be told apart in text, if those in the result can. -/
theorem program_within {result : Expr} (h : result.Within .readable) :
    (program result).Within .readable where
  imports := by
    show ∀ path ∈ [["math", "Limits"]], ∀ segment ∈ path, Code.isName segment = true
    decide
  className := show Code.isName "Clamp" = true by decide
  classTy := show (Code.Ty.object "Clamp").isReadable = true by decide
  superClass := show ∀ name ∈ some "Base", Code.isName name = true by decide
  fields := List.forall_mem_singleton.mpr ⟨show Code.isName "k" = true by decide, rfl⟩
  methods := List.forall_mem_singleton.mpr {
    name := show Code.isName "clamp" = true by decide
    returnType := rfl
    parameters := List.forall_mem_cons.mpr ⟨⟨show Code.isName "xs" = true by decide, rfl⟩,
      List.forall_mem_singleton.mpr ⟨show Code.isName "other" = true by decide,
        show (Code.Ty.object "Clamp").isReadable = true by decide⟩⟩
    locals := nofun
    body := ⟨⟨⟨k_within, first_within, rfl⟩, ⟨k_within, trivial⟩, k_within, first_within⟩,
      fun e he => Option.some.inj he ▸ h, trivial⟩ }

end Clamp

/-- A class and the same class with parentheses around a value. -/
theorem clamp_text_injective : ∃ unit unit', ofProgram true (Clamp.program Clamp.k) = .ok unit ∧
    ofProgram true (Clamp.program (.paren Clamp.k)) = .ok unit' ∧ unit.text = unit'.text ∧
      unit = unit' := by
  have hLowered : ∃ unit, ofProgram true (Clamp.program Clamp.k) = .ok unit ∧
      ofProgram true (Clamp.program (.paren Clamp.k)) = .ok unit := ⟨_, rfl, rfl⟩
  have hWithin : (Expr.paren Clamp.k).Within .readable := Clamp.k_within
  obtain ⟨unit, hPlain, hParen⟩ := hLowered
  exact ⟨unit, unit, hPlain, hParen, rfl, lowered_text_injective (Clamp.program_within Clamp.k_within)
    (Clamp.program_within hWithin) hPlain hParen rfl⟩

end MiniJava.Lowering
