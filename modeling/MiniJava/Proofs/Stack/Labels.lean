import MiniJava.Stack.Encoding
import Mathlib.Tactic.SplitIfs

/-! Labels and jumps of stack code. -/

namespace MiniJava.Stack

/-- The name of the label that the instruction is, if it is one. A jump names a label without being
one. -/
def Instr.label? : Instr → Option String
  | .label name => some name
  | _ => none

/-- The labels that stand in the code, in their order. A label that stands there twice is listed
twice. -/
def labels (code : List Instr) : List String := code.filterMap Instr.label?

/-- The labels to which the code may jump. They need not stand in the code itself. -/
def targets (code : List Instr) : List String := code.filterMap Instr.target?

@[simp] theorem labels_append (first second : List Instr) :
    labels (first ++ second) = labels first ++ labels second := List.filterMap_append

@[simp] theorem targets_append (first second : List Instr) :
    targets (first ++ second) = targets first ++ targets second := List.filterMap_append

@[simp] theorem labels_nil : labels [] = [] := rfl

@[simp] theorem targets_nil : targets [] = [] := rfl

@[simp] theorem labels_cons (i : Instr) (code : List Instr) :
    labels (i :: code) = i.label?.toList ++ labels code := by
  rw [labels, List.filterMap_cons]
  cases i.label? <;> rfl

@[simp] theorem targets_cons (i : Instr) (code : List Instr) :
    targets (i :: code) = i.target?.toList ++ targets code := by
  rw [targets, List.filterMap_cons]
  cases i.target? <;> rfl

/-- Code without labels and jumps. Such code can be put anywhere without a label being met twice. -/
structure Straight (code : List Instr) : Prop where
  labels : labels code = []
  targets : targets code = []

namespace Straight

variable {code rest : List Instr}

theorem nil : Straight [] := ⟨rfl, rfl⟩

theorem single {i : Instr} (hLabel : i.label? = none) (hTarget : i.target? = none) :
    Straight [i] := by
  constructor
  · rw [labels_cons, hLabel]
    rfl
  · rw [targets_cons, hTarget]
    rfl

theorem of_forall (h : ∀ i ∈ code, i.label? = none ∧ i.target? = none) : Straight code :=
  ⟨List.filterMap_eq_nil_iff.mpr fun i hi => (h i hi).1,
    List.filterMap_eq_nil_iff.mpr fun i hi => (h i hi).2⟩

theorem append (hCode : Straight code) (hRest : Straight rest) : Straight (code ++ rest) := by
  constructor
  · rw [labels_append, hCode.labels, hRest.labels, List.append_nil]
  · rw [targets_append, hCode.targets, hRest.targets, List.append_nil]

end Straight

theorem straight_pushInt (value : Int32) : Straight [pushInt value] := by
  unfold pushInt
  dsimp only
  split_ifs <;> exact .single rfl rfl

theorem straight_loadSlot (kind : Kind) (slot : UInt16) : Straight [loadSlot kind slot] := by
  unfold loadSlot
  split_ifs <;> exact .single rfl rfl

theorem straight_storeSlot (kind : Kind) (slot : UInt16) : Straight [storeSlot kind slot] := by
  unfold storeSlot
  split_ifs <;> exact .single rfl rfl

end MiniJava.Stack
