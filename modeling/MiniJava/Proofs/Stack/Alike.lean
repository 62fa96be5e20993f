import MiniJava.Proofs.Assembly.Runs
import MiniJava.Proofs.Stack.Flow
import Mathlib.Data.List.Forall2
import Mathlib.Logic.Equiv.Basic
import Mathlib.Logic.Relator

/-! Stack code that differs only in its labels: one renaming takes it to the other, and it grows the
stack as far. -/

namespace MiniJava.Stack

variable {labels : String → String → Prop} {code code' : List Instr}

/-- The instruction with its labels and targets renamed. Nothing else in it changes, its stack effect
least of all. -/
def Instr.relabel (rename : String → String) : Instr → Instr
  | .ifZero comparison target => .ifZero comparison (rename target)
  | .ifInts comparison target => .ifInts comparison (rename target)
  | .goto target => .goto (rename target)
  | .label name => .label (rename name)
  | i => i

/-- The same instruction up to a label, for which another stands. An instruction without a label is alike
only itself. -/
inductive Instr.Alike (labels : String → String → Prop) : Instr → Instr → Prop where
  | ifZero (comparison : Comparison) {target target' : String} (h : labels target target') :
      Alike labels (.ifZero comparison target) (.ifZero comparison target')
  | ifInts (comparison : Comparison) {target target' : String} (h : labels target target') :
      Alike labels (.ifInts comparison target) (.ifInts comparison target')
  | goto {target target' : String} (h : labels target target') :
      Alike labels (.goto target) (.goto target')
  | label {name name' : String} (h : labels name name') : Alike labels (.label name) (.label name')
  | same (i : Instr) (hLabel : i.label? = none) (hTarget : i.target? = none) : Alike labels i i

/-- Stack code of the same length whose instructions are the same one by one, up to labels that stand for
each other. -/
abbrev CodeAlike (labels : String → String → Prop) : List Instr → List Instr → Prop :=
  List.Forall₂ (Instr.Alike labels)

theorem Straight.alike (h : Straight code) : CodeAlike labels code code := by
  refine List.forall₂_same.mpr fun i hi => .same i ?_ ?_
  · exact List.filterMap_eq_nil_iff.mp h.labels i hi
  · exact List.filterMap_eq_nil_iff.mp h.targets i hi

/-- Finitely many pairs in which nothing stands twice on either side belong to a permutation. -/
theorem exists_perm {α : Type} [DecidableEq α] {r : α → α → Prop} (hUnique : Relator.BiUnique r)
    (xs : List α) : ∃ rename : Equiv.Perm α, ∀ x ∈ xs, ∀ y, r x y → rename x = y := by
  induction xs with
  | nil => exact ⟨Equiv.refl α, fun x hx => (List.not_mem_nil hx).elim⟩
  | cons first rest ih =>
      obtain ⟨rename, hRest⟩ := ih
      by_cases hPaired : ∃ image, r first image
      · obtain ⟨image, hImage⟩ := hPaired
        -- The image of `first` is put right, and no other image is in the way.
        refine ⟨rename.trans (Equiv.swap (rename first) image), fun x hx y hxy => ?_⟩
        by_cases hFirst : x = first
        · subst hFirst
          obtain rfl := hUnique.2 hImage hxy
          exact Equiv.swap_apply_left _ _
        · have hMem := List.mem_of_ne_of_mem hFirst hx
          have hOther : y ≠ image := fun hSame => hFirst (hUnique.1 hxy (hSame ▸ hImage))
          have hApart : y ≠ rename first := by
            rw [← hRest x hMem y hxy]
            exact fun hSame => hFirst (rename.injective hSame)
          rw [Equiv.trans_apply, hRest x hMem y hxy]
          exact Equiv.swap_apply_of_ne_of_ne hApart hOther
      · refine ⟨rename, fun x hx y hxy => ?_⟩
        rcases List.mem_cons.mp hx with rfl | hMem
        · exact (hPaired ⟨y, hxy⟩).elim
        · exact hRest x hMem y hxy

namespace Instr.Alike

variable {i i' : Instr}

theorem pops_eq (h : i.Alike labels i') : i.pops = i'.pops := by
  cases h <;> rfl

theorem pushes_eq (h : i.Alike labels i') : i.pushes = i'.pushes := by
  cases h <;> rfl

theorem isUnconditional_eq (h : i.Alike labels i') : i.isUnconditional = i'.isUnconditional := by
  cases h <;> rfl

theorem isLabel_eq (h : i.Alike labels i') : i.isLabel = i'.isLabel := by
  cases h <;> rfl

/-- A renaming that agrees with what stands for what at the label and the target of an instruction gives
the instruction on the other side. -/
theorem eq_relabel (h : i.Alike labels i') {rename : String → String}
    (hLabel : ∀ name ∈ i.label?, ∀ name', labels name name' → rename name = name')
    (hTarget : ∀ name ∈ i.target?, ∀ name', labels name name' → rename name = name') :
    i' = i.relabel rename := by
  cases h with
  | ifZero comparison h => rw [Instr.relabel, hTarget _ rfl _ h]
  | ifInts comparison h => rw [Instr.relabel, hTarget _ rfl _ h]
  | goto h => rw [Instr.relabel, hTarget _ rfl _ h]
  | label h => rw [Instr.relabel, hLabel _ rfl _ h]
  | same _ hNoLabel hNoTarget =>
      cases i with
      | label => cases hNoLabel
      | ifZero | ifInts | goto => cases hNoTarget
      | _ => rfl

end Instr.Alike

/-- Code alike is the code with its labels renamed, if the renaming agrees at all its labels and
targets. -/
theorem CodeAlike.eq_map_relabel (h : CodeAlike labels code code') {rename : String → String}
    (hLabels : ∀ name ∈ Stack.labels code, ∀ name', labels name name' → rename name = name')
    (hTargets : ∀ name ∈ targets code, ∀ name', labels name name' → rename name = name') :
    code' = code.map (Instr.relabel rename) := by
  induction h with
  | nil => rfl
  | cons hInstr _ ih =>
      rw [labels_cons, List.forall_mem_append] at hLabels
      rw [targets_cons, List.forall_mem_append] at hTargets
      rw [List.map_cons, ← ih hLabels.2 hTargets.2]
      congr 1
      exact hInstr.eq_relabel (fun name hName => hLabels.1 name (Option.mem_toList.mpr hName))
        (fun name hName => hTargets.1 name (Option.mem_toList.mpr hName))

/-- A single renaming, under which no two labels become one, takes the code to the other. Outside the
labels of the code it may be anything. -/
theorem CodeAlike.exists_relabel (hUnique : Relator.BiUnique labels)
    (h : CodeAlike labels code code') :
    ∃ rename : String → String, Function.Injective rename ∧
      code' = code.map (Instr.relabel rename) := by
  obtain ⟨rename, hRename⟩ := exists_perm hUnique (Stack.labels code ++ targets code)
  rw [List.forall_mem_append] at hRename
  exact ⟨rename, rename.injective, h.eq_map_relabel hRename.1 hRename.2⟩

/-- Two walks at the same depth that have met the same jumps, each under its own labels. -/
structure Walk.Alike (labels : String → String → Prop) (walk walk' : Walk) : Prop where
  depth : walk.depth = walk'.depth
  maxDepth : walk.maxDepth = walk'.maxDepth
  reachable : walk.reachable = walk'.reachable
  jumps : ∀ name name', labels name name' → walk.jumps[name]? = walk'.jumps[name']?

namespace Walk.Alike

variable {walk walk' : Walk}

theorem start : Alike labels .start .start := ⟨rfl, rfl, rfl, by simp [Walk.start]⟩

/-- Noting the depth of a jump on both sides keeps them alike. No label stands for two, so that nothing
else is noted by it. -/
theorem record (hUnique : Relator.BiUnique labels) {jumps jumps' : Std.HashMap String Nat}
    (h : ∀ name name', labels name name' → jumps[name]? = jumps'[name']?) {target target' : String}
    (hTarget : labels target target') (depth : Nat) (name name' : String)
    (hName : labels name name') :
    (Walk.record jumps (some target) depth)[name]? =
      (Walk.record jumps' (some target') depth)[name']? := by
  have hSame : target = name ↔ target' = name' := Relator.rel_eq hUnique hTarget hName
  have hMem : target ∈ jumps ↔ target' ∈ jumps' := by
    rw [Std.HashMap.mem_iff_isSome_getElem?, Std.HashMap.mem_iff_isSome_getElem?, h _ _ hTarget]
  simp only [Walk.record, Std.HashMap.getElem?_insertIfNew, beq_iff_eq, hSame, hMem, h _ _ hName]

/-- The walk goes over instructions that are alike with the same changes of depth. -/
theorem after (hUnique : Relator.BiUnique labels) (h : walk.Alike labels walk') {i i' : Instr}
    (hInstr : i.Alike labels i') : (walk.after i).Alike labels (walk'.after i') where
  depth := by simp only [Walk.after, h.depth, hInstr.pops_eq, hInstr.pushes_eq]
  maxDepth := by simp only [Walk.after, h.depth, h.maxDepth, hInstr.pops_eq, hInstr.pushes_eq]
  reachable := by simp only [Walk.after, h.reachable, hInstr.isUnconditional_eq]
  jumps := by
    simp only [Walk.after, h.depth, hInstr.pops_eq, hInstr.pushes_eq]
    cases hInstr with
    | ifZero _ hTarget | ifInts _ hTarget | goto hTarget => exact record hUnique h.jumps hTarget _
    | label _ => exact h.jumps
    | same i _ hTarget =>
        rw [hTarget]
        exact h.jumps

/-- At a label both walks go on with the depth of a jump that they have met, or with their own. -/
theorem atLabel (h : walk.Alike labels walk') {name name' : String} (hName : labels name name') :
    (walk.atLabel name).Alike labels (walk'.atLabel name') where
  depth := by
    simp only [Walk.atLabel, h.depth, h.reachable, Std.HashMap.getD_eq_getD_getElem?,
      h.jumps _ _ hName]
  maxDepth := h.maxDepth
  reachable := rfl
  jumps := h.jumps

theorem step (hUnique : Relator.BiUnique labels) (h : walk.Alike labels walk') {i i' : Instr}
    (hInstr : i.Alike labels i') {method : String} {next next' : Walk}
    (hStep : walk.step method i = .ok next) (hStep' : walk'.step method i' = .ok next') :
    next.Alike labels next' := by
  cases hLabel : i.isLabel with
  | true =>
      cases hInstr with
      | label hName =>
          obtain rfl := Except.ok.inj hStep
          obtain rfl := Except.ok.inj hStep'
          exact h.atLabel hName
      | ifZero | ifInts | goto => cases hLabel
      | same i hNone =>
          cases i with
          | label => cases hNone
          | _ => cases hLabel
  | false =>
      rw [step_of_not_label hLabel] at hStep
      rw [step_of_not_label (hInstr.isLabel_eq ▸ hLabel)] at hStep'
      split at hStep
      · cases hStep
      · split at hStep'
        · cases hStep'
        · obtain rfl := Except.ok.inj hStep
          obtain rfl := Except.ok.inj hStep'
          exact h.after hUnique hInstr

theorem foldlM (hUnique : Relator.BiUnique labels) (h : walk.Alike labels walk')
    (hCode : CodeAlike labels code code') {method : String} {last last' : Walk}
    (hRun : code.foldlM (Walk.step method) walk = .ok last)
    (hRun' : code'.foldlM (Walk.step method) walk' = .ok last') : last.Alike labels last' := by
  induction hCode generalizing walk walk' with
  | nil =>
      obtain rfl := except_pure_ok.mp hRun
      obtain rfl := except_pure_ok.mp hRun'
      exact h
  | cons hInstr _ ih =>
      rw [List.foldlM_cons] at hRun hRun'
      obtain ⟨next, hStep, hRest⟩ := except_bind_ok.mp hRun
      obtain ⟨next', hStep', hRest'⟩ := except_bind_ok.mp hRun'
      exact ih (h.step hUnique hInstr hStep hStep') hRest hRest'

end Walk.Alike

/-- Labels have no part in how far code grows the stack. Only that they are told apart matters to the
walk. -/
theorem usage_alike (hUnique : Relator.BiUnique labels) (h : CodeAlike labels code code')
    {method : String} {found found' : Usage} (hUsage : usage method code = .ok found)
    (hUsage' : usage method code' = .ok found') : found = found' := by
  simp only [usage, except_bind_ok, except_pure_ok] at hUsage hUsage'
  obtain ⟨walk, hWalk, maxDepth, hMax, depth, hDepth, rfl⟩ := hUsage
  obtain ⟨walk', hWalk', maxDepth', hMax', depth', hDepth', rfl⟩ := hUsage'
  have hAlike := Walk.Alike.start.foldlM hUnique h hWalk hWalk'
  rw [hAlike.maxDepth, hMax'] at hMax
  rw [hAlike.depth, hDepth'] at hDepth
  rw [Except.ok.inj hMax, Except.ok.inj hDepth]

end MiniJava.Stack
