import Mathlib.Order.Basic

/-! Facts that hold on all ways through code. Code is read once from its start, with the facts that
hold at each label given beforehand; if every instruction fits what was read before it, then on each
way to a place at least those facts hold that were read there. -/

namespace MiniJava

/-- How control moves: an instruction may be a label, it may jump to a label, and control may go on
from it to the next. -/
structure Control (ι Label : Type) where
  label? : ι → Option Label
  target? : ι → Option Label
  goesOn : ι → Bool

/-- Control can come from the start of the code to a place. The instructions on the way there are
listed in their order, as often as they ran. -/
inductive Control.Way {ι Label : Type} (control : Control ι Label) (code : List ι) :
    Nat → List ι → Prop
  | start : Way control code 0 []
  | next {place : Nat} {past : List ι} {i : ι} (hWay : Way control code place past)
      (hInstr : code[place]? = some i) (hGoesOn : control.goesOn i = true) :
      Way control code (place + 1) (past ++ [i])
  | jump {place target : Nat} {past : List ι} {i j : ι} {l : Label}
      (hWay : Way control code place past) (hInstr : code[place]? = some i)
      (hTarget : control.target? i = some l) (hThere : code[target]? = some j)
      (hLabel : control.label? j = some l) : Way control code target (past ++ [i])

/-- Facts, ordered by how much they say, that instructions need and change. Both must be monotone: an
instruction that has what it needs from few facts has it from many, and does not leave less known. -/
structure Analysis (ι Label Facts : Type) [Preorder Facts] extends Control ι Label where
  needs : Facts → ι → Prop
  effect : Facts → ι → Facts
  needs_mono : ∀ {few many i}, few ≤ many → needs few i → needs many i
  effect_mono : ∀ {few many i}, few ≤ many → needs few i → effect few i ≤ effect many i

namespace Analysis

variable {ι Label Facts : Type} [Preorder Facts] (a : Analysis ι Label Facts)

section Reading

variable (atLabel : Label → Facts) (known : Option Facts)

/-- What is known before an instruction, from what is known after the one before it. Nothing need
be known where control does not come. -/
def before (i : ι) : Option Facts :=
  match a.label? i with
  | some l => some (atLabel l)
  | none => known

/-- What is known after an instruction. -/
def next (i : ι) : Option Facts :=
  if a.goesOn i = true then (a.before atLabel known i).map (a.effect · i) else none

/-- The instruction has what it needs, and what is to hold at labels holds where control comes to them.
Nothing is asked of an instruction to which control does not come. -/
structure Fits (i : ι) : Prop where
  enters : ∀ l facts, a.label? i = some l → known = some facts → atLabel l ≤ facts
  needs : ∀ facts, a.before atLabel known i = some facts → a.needs facts i
  jumps : ∀ l facts, a.target? i = some l → a.before atLabel known i = some facts →
    atLabel l ≤ a.effect facts i

end Reading

/-- Every instruction of the code fits, from what is known at its start to what is known at its end. Code
is read once, without following its jumps, because labels carry what is known at them. -/
inductive Flows (atLabel : Label → Facts) : Option Facts → List ι → Option Facts → Prop
  | nil (known : Option Facts) : Flows atLabel known [] known
  | cons {known known' : Option Facts} {i : ι} {rest : List ι} (hFits : a.Fits atLabel known i)
      (hRest : Flows atLabel (a.next atLabel known i) rest known') :
      Flows atLabel known (i :: rest) known'

variable {a} {atLabel : Label → Facts} {known known' known'' : Option Facts} {code rest : List ι}

namespace Flows

/-- Code that fits can be followed by code that fits what is known at its end. -/
theorem append (hCode : a.Flows atLabel known code known')
    (hRest : a.Flows atLabel known' rest known'') :
    a.Flows atLabel known (code ++ rest) known'' := by
  induction hCode with
  | nil known => exact hRest
  | cons hFits _ ih => exact .cons hFits (ih hRest)

/-- An instruction that is not reached fits, unless it is a label. Nothing is asked of it, and nothing is
known behind it. -/
theorem skip {i : ι} (hLabel : a.label? i = none) (hRest : a.Flows atLabel none rest known') :
    a.Flows atLabel none (i :: rest) known' := by
  have hBefore : a.before atLabel none i = none := by rw [before, hLabel]
  have hNext : a.next atLabel none i = none := by
    rw [next, hBefore]
    split <;> rfl
  refine .cons ⟨nofun, ?_, ?_⟩ (hNext.symm ▸ hRest)
  · intro facts hFacts
    rw [hBefore] at hFacts
    cases hFacts
  · intro target facts _ hFacts
    rw [hBefore] at hFacts
    cases hFacts

/-- Code that is not reached at its start fits if it fits at all. Behind a label in it the same is known
as before. -/
theorem unreached (h : a.Flows atLabel known code known') :
    ∃ known'', a.Flows atLabel none code known'' ∧ ∀ facts, known'' = some facts →
      known' = some facts := by
  induction h with
  | nil known => exact ⟨none, .nil none, nofun⟩
  | @cons known known' i rest hFits hRest ih =>
      cases hLabel : a.label? i with
      | some l =>
          have hBefore : ∀ known, a.before atLabel known i = some (atLabel l) := by
            intro known
            rw [before, hLabel]
          have hNext : a.next atLabel none i = a.next atLabel known i := by
            rw [next, next, hBefore, hBefore]
          refine ⟨known', .cons ⟨nofun, ?_, ?_⟩ (hNext ▸ hRest), fun _ h => h⟩
          · intro facts hFacts
            exact hFits.needs facts ((hBefore known).trans ((hBefore none).symm.trans hFacts))
          · intro target facts hTarget hFacts
            exact hFits.jumps target facts hTarget
              ((hBefore known).trans ((hBefore none).symm.trans hFacts))
      | none =>
          obtain ⟨known'', hTail, hKnown⟩ := ih
          exact ⟨known'', .skip hLabel hTail, hKnown⟩

/-- Only the facts at labels of the code and at the targets of its jumps matter. Those at all other
labels may be changed. -/
theorem congr {atLabel' : Label → Facts} (h : a.Flows atLabel known code known')
    (hSame : ∀ i ∈ code, ∀ l, a.label? i = some l ∨ a.target? i = some l →
      atLabel' l = atLabel l) : a.Flows atLabel' known code known' := by
  induction h with
  | nil known => exact .nil known
  | @cons known known' i rest hFits hRest ih =>
      obtain ⟨hHere, hThere⟩ := List.forall_mem_cons.mp hSame
      have hBefore : a.before atLabel' known i = a.before atLabel known i := by
        unfold before
        cases hLabel : a.label? i with
        | some l => exact congrArg some (hHere l (.inl hLabel))
        | none => rfl
      have hNext : a.next atLabel' known i = a.next atLabel known i := by
        rw [next, next, hBefore]
      refine .cons ⟨?_, ?_, ?_⟩ (hNext.symm ▸ ih hThere)
      · intro l facts hLabel hFacts
        rw [hHere l (.inl hLabel)]
        exact hFits.enters l facts hLabel hFacts
      · intro facts hFacts
        exact hFits.needs facts (hBefore.symm.trans hFacts)
      · intro l facts hTarget hFacts
        rw [hHere l (.inr hTarget)]
        exact hFits.jumps l facts hTarget (hBefore.symm.trans hFacts)

end Flows

/-- What is known before a place, from the instruction before it. At a label this is not yet what the
label itself lets be known. -/
def upTo (a : Analysis ι Label Facts) (atLabel : Label → Facts) (known : Option Facts)
    (code : List ι) (place : Nat) : Option Facts :=
  (code.take place).foldl (a.next atLabel) known

theorem upTo_succ {place : Nat} {i : ι} (hInstr : code[place]? = some i) :
    a.upTo atLabel known code (place + 1) = a.next atLabel (a.upTo atLabel known code place) i := by
  rw [upTo, List.take_add_one, hInstr, List.foldl_append]
  rfl

/-- Reading code as a whole has every instruction fit what is known before it. -/
theorem Flows.fits_upTo (h : a.Flows atLabel known code known') {place : Nat} {i : ι}
    (hInstr : code[place]? = some i) :
    a.Fits atLabel (a.upTo atLabel known code place) i := by
  induction h generalizing place with
  | nil known => cases hInstr
  | cons hFits hRest ih =>
      cases place with
      | zero =>
          cases hInstr
          exact hFits
      | succ place => exact ih hInstr

/-- What was read before an instruction holds on every way to it, if at the start at least that holds
from which the code was read. -/
theorem Flows.known_before {first start : Facts} (h : a.Flows atLabel (some first) code known')
    (hStart : first ≤ start) {place : Nat} {past : List ι} (hWay : a.Way code place past) {i : ι}
    (hInstr : code[place]? = some i) :
    ∃ facts, a.before atLabel (a.upTo atLabel (some first) code place) i = some facts ∧
      a.needs facts i ∧ facts ≤ past.foldl a.effect start := by
  -- Control comes to a place from the instruction before it, or by a jump to a label there.
  have hHere : ∀ {place : Nat} {state : Facts} {i : ι}, code[place]? = some i →
      ((∃ facts, a.upTo atLabel (some first) code place = some facts ∧ facts ≤ state) ∨
        ∃ l, a.label? i = some l ∧ atLabel l ≤ state) →
      ∃ facts, a.before atLabel (a.upTo atLabel (some first) code place) i = some facts ∧
        a.needs facts i ∧ facts ≤ state := by
    intro place state i hInstr hComes
    have hFits := h.fits_upTo hInstr
    suffices hFacts : ∃ facts,
        a.before atLabel (a.upTo atLabel (some first) code place) i = some facts ∧ facts ≤ state by
      obtain ⟨facts, hFacts, hLe⟩ := hFacts
      exact ⟨facts, hFacts, hFits.needs facts hFacts, hLe⟩
    cases hLabel : a.label? i with
    | some l =>
        refine ⟨atLabel l, by rw [before, hLabel], ?_⟩
        rcases hComes with ⟨facts, hFacts, hLe⟩ | ⟨l', hLabel', hLe⟩
        · exact le_trans (hFits.enters l facts hLabel hFacts) hLe
        · obtain rfl := Option.some.inj (hLabel.symm.trans hLabel')
          exact hLe
    | none =>
        rcases hComes with ⟨facts, hFacts, hLe⟩ | ⟨l, hLabel', _⟩
        · exact ⟨facts, by rw [before, hLabel]; exact hFacts, hLe⟩
        · rw [hLabel] at hLabel'
          cases hLabel'
  have hComes : ∀ {place : Nat} {past : List ι}, a.Way code place past → ∀ i,
      code[place]? = some i →
      (∃ facts, a.upTo atLabel (some first) code place = some facts ∧
        facts ≤ past.foldl a.effect start) ∨
        ∃ l, a.label? i = some l ∧ atLabel l ≤ past.foldl a.effect start := by
    intro place past hWay
    induction hWay with
    | start =>
        intro i _
        exact .inl ⟨first, rfl, hStart⟩
    | @next place past i _ hInstr hGoesOn ih =>
        intro j _
        obtain ⟨facts, hFacts, hNeeds, hLe⟩ := hHere hInstr (ih i hInstr)
        refine .inl ⟨a.effect facts i, ?_, ?_⟩
        · rw [upTo_succ hInstr, next, if_pos hGoesOn, hFacts]
          rfl
        · rw [List.foldl_append]
          exact a.effect_mono hLe hNeeds
    | @jump place target past i j l _ hInstr hTarget hThere hLabel ih =>
        intro j' hInstr'
        obtain rfl := Option.some.inj (hThere.symm.trans hInstr')
        obtain ⟨facts, hFacts, hNeeds, hLe⟩ := hHere hInstr (ih i hInstr)
        refine .inr ⟨l, hLabel, ?_⟩
        rw [List.foldl_append]
        exact le_trans ((h.fits_upTo hInstr).jumps l facts hTarget hFacts)
          (a.effect_mono hLe hNeeds)
  exact hHere hInstr (hComes hWay i hInstr)

end Analysis

end MiniJava
