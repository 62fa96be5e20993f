import MiniJava.Assembly.Selection
import MiniJava.Proofs.Stack.Labels
import MiniJava.Proofs.Stack.Slots
import MiniJava.Proofs.Ways

/-! Abstract interpretation of stack code over the kinds of values: which kinds an instruction takes
from the stack and leaves on it, and which slots hold values of which kind. -/

namespace MiniJava.Stack

/-- The kind of the values that a descriptor describes. Only the descriptors of integers and booleans
describe words. -/
def descriptorKind (descriptor : String) : Kind :=
  if descriptor = "I" ∨ descriptor = "Z" then .int else .reference

/-- The kind of the items of an array, once they are on the stack, where a boolean takes as much room as
an integer. -/
def ElementKind.kind : ElementKind → Kind
  | .int | .byte => .int
  | .reference => .reference

namespace Instr

/-- The kinds that the instruction takes from the stack, the topmost first. Two instructions take
whatever is on top. -/
def takes (top : Kind) : Instr → List Kind
  | .iconstM1 | .iconst _ | .bipush _ | .sipush _ | .ldc _ => []
  | .loadShort _ _ | .load _ _ | .new _ | .goto _ | .ret | .label _ => []
  | .storeShort kind _ | .store kind _ | .retValue kind => [kind]
  | .dup | .pop => [top]
  | .newIntArray | .ifZero _ _ => [.int]
  | .arithmetic _ | .ifInts _ _ => [.int, .int]
  | .arrayLength | .getField _ => [.reference]
  | .putField field => [descriptorKind field.descriptor, .reference]
  | .arrayLoad _ => [.int, .reference]
  | .arrayStore kind => [kind.kind, .int, .reference]
  | .invoke kind method =>
      (method.parameters.map descriptorKind).reverse ++ if kind.hasReceiver then [.reference] else []

/-- The kinds that the instruction then puts on the stack, the topmost first. -/
def leaves (top : Kind) : Instr → List Kind
  | .iconstM1 | .iconst _ | .bipush _ | .sipush _ | .ldc _ => [.int]
  | .loadShort kind _ | .load kind _ => [kind]
  | .new _ | .newIntArray => [.reference]
  | .dup => [top, top]
  | .arrayLength | .arithmetic _ => [.int]
  | .getField field => [descriptorKind field.descriptor]
  | .arrayLoad kind => [kind.kind]
  | .invoke _ method => if method.returnsValue then [descriptorKind method.result] else []
  | .storeShort _ _ | .store _ _ | .pop | .putField _ | .arrayStore _ => []
  | .ifZero _ _ | .ifInts _ _ | .goto _ | .retValue _ | .ret | .label _ => []

/-- The slot that the instruction loads, with the kind of its value. Long and short forms count alike. -/
def loads? : Instr → Option (Nat × Kind)
  | .loadShort kind slot => some (slot.toNat, kind)
  | .load kind slot => some (slot.toNat, kind)
  | _ => none

/-- The slot that the instruction stores into, with the kind of its new value. Whatever the slot held
before is replaced. -/
def stores? : Instr → Option (Nat × Kind)
  | .storeShort kind slot => some (slot.toNat, kind)
  | .store kind slot => some (slot.toNat, kind)
  | _ => none

end Instr

/-- The kinds of the values on the stack, the topmost first, and of those in slots. A slot for which
there is none may hold nothing, or anything. -/
structure Cells where
  stack : List Kind
  slots : Nat → Option Kind

namespace Cells

/-- The kind on top of the stack. An empty stack is given some kind; nothing is said of an instruction
that would take it. -/
def top (cells : Cells) : Kind := cells.stack.headD .int

/-- One says as much as another of the stack, and no more of the slots. -/
instance : Preorder Cells where
  le few many := few.stack = many.stack ∧
    ∀ slot kind, few.slots slot = some kind → many.slots slot = some kind
  le_refl _ := ⟨rfl, fun _ _ h => h⟩
  le_trans _ _ _ h h' := ⟨h.1.trans h'.1, fun slot kind hKind => h'.2 slot kind (h.2 slot kind hKind)⟩

/-- How much is known of slots has nothing to do with the top of the stack. -/
theorem top_eq {few many : Cells} (h : few ≤ many) : few.top = many.top := by
  rw [top, top, h.1]

/-- The slots after an instruction. Only a store changes one, and what is known of the others stays. -/
def stored (slots : Nat → Option Kind) (i : Instr) : Nat → Option Kind :=
  match i.stores? with
  | some (slot, kind) => Function.update slots slot (some kind)
  | none => slots

end Cells

/-- How control moves through stack code. The facts that are followed along its ways are left open
here. -/
def control : Control Instr String where
  label? := Instr.label?
  target? := Instr.target?
  goesOn i := !i.isUnconditional

/-- An instruction needs the kinds that it takes on top of the stack, and a value of the kind that it
loads in its slot. -/
def kinds : Analysis Instr String Cells where
  toControl := control
  needs cells i := i.takes cells.top <+: cells.stack ∧
    ∀ slot kind, i.loads? = some (slot, kind) → cells.slots slot = some kind
  effect cells i := ⟨i.leaves cells.top ++ cells.stack.drop (i.takes cells.top).length,
    Cells.stored cells.slots i⟩
  needs_mono {few many i} hLe hNeeds := by
    rw [← Cells.top_eq hLe, ← hLe.1]
    exact ⟨hNeeds.1, fun slot kind hLoads => hLe.2 slot kind (hNeeds.2 slot kind hLoads)⟩
  effect_mono {few many i} hLe _ := by
    rw [← Cells.top_eq hLe, ← hLe.1]
    refine ⟨rfl, fun slot kind hKind => ?_⟩
    dsimp only [Cells.stored] at hKind ⊢
    cases hStores : i.stores? with
    | none =>
        rw [hStores] at hKind
        exact hLe.2 slot kind hKind
    | some stored =>
        rw [hStores] at hKind
        dsimp only at hKind ⊢
        by_cases hSame : slot = stored.1
        · subst hSame
          rwa [Function.update_self] at hKind ⊢
        · rw [Function.update_of_ne hSame] at hKind ⊢
          exact hLe.2 slot kind hKind

section Reading

variable {atLabel : String → Cells} {cells : Cells} {known : Option Cells} {rest : List Kind}
  {slots : Nat → Option Kind} {i : Instr}

theorem before_of_not_label (hLabel : i.label? = none) : kinds.before atLabel known i = known := by
  rw [Analysis.before, show kinds.label? i = none from hLabel]

/-- An instruction that is no label, where there is what it needs and what is to be known at its
target. -/
theorem flows_instr (hLabel : i.label? = none) (hNeeds : kinds.needs cells i)
    (hJumps : ∀ l, i.target? = some l → atLabel l ≤ kinds.effect cells i) :
    kinds.Flows atLabel (some cells) [i]
      (if i.isUnconditional = true then none else some (kinds.effect cells i)) := by
  have hNext : kinds.next atLabel (some cells) i =
      if i.isUnconditional = true then none else some (kinds.effect cells i) := by
    rw [Analysis.next, before_of_not_label hLabel, Option.map_some]
    change (if (!i.isUnconditional) = true then _ else _) = _
    cases i.isUnconditional <;> rfl
  refine .cons ⟨?_, ?_, ?_⟩ (hNext ▸ .nil _)
  · intro l facts hLabel'
    rw [show kinds.label? i = none from hLabel] at hLabel'
    cases hLabel'
  · intro facts hFacts
    rw [before_of_not_label hLabel] at hFacts
    cases hFacts
    exact hNeeds
  · intro l facts hTarget hFacts
    rw [before_of_not_label hLabel] at hFacts
    cases hFacts
    exact hJumps l hTarget

/-- A label, where at least that is known which is to be known there. Behind it no more is known than the
label lets be known. -/
theorem flows_label {name : String} (hEnters : ∀ facts, known = some facts → atLabel name ≤ facts) :
    kinds.Flows atLabel known [.label name] (some (atLabel name)) := by
  refine .cons ⟨?_, ?_, nofun⟩ (.nil _)
  · rintro _ facts ⟨⟩ hFacts
    exact hEnters facts hFacts
  · exact fun facts _ => ⟨List.nil_prefix, nofun⟩

/-- The code turns the stack `first` into `last`, and leaves known of the slots what was known. Control
enters it at the start and leaves it at the end. -/
def Turns (atLabel : String → Cells) (slots : Nat → Option Kind) (first : List Kind)
    (code : List Instr) (last : List Kind) : Prop :=
  kinds.Flows atLabel (some ⟨first, slots⟩) code (some ⟨last, slots⟩)

theorem Turns.append {first middle last : List Kind} {code others : List Instr}
    (hCode : Turns atLabel slots first code middle) (hOthers : Turns atLabel slots middle others last) :
    Turns atLabel slots first (code ++ others) last := Analysis.Flows.append hCode hOthers

theorem turns_nil : Turns atLabel slots rest [] rest := .nil _

theorem turns_pushInt (value : Int32) : Turns atLabel slots rest [pushInt value] (.int :: rest) := by
  unfold pushInt
  dsimp only
  split_ifs <;> exact flows_instr rfl ⟨List.nil_prefix, nofun⟩ nofun

theorem loads?_loadSlot (kind : Kind) (slot : UInt16) :
    (loadSlot kind slot).loads? = some (slot.toNat, kind) := by
  unfold loadSlot
  split_ifs with hShort
  · exact congrArg (fun n => some (n, kind)) (toNat_short hShort)
  · rfl

/-- Loading needs a value of its kind in the slot, and leaves the slot as it is. Short and long forms are
alike in this. -/
theorem turns_loadSlot {kind : Kind} {slot : UInt16} (h : slots slot.toNat = some kind) :
    Turns atLabel slots rest [loadSlot kind slot] (kind :: rest) := by
  have hLoads : ∀ n k, (loadSlot kind slot).loads? = some (n, k) → slots n = some k := by
    intro n k hLoads
    rw [loads?_loadSlot] at hLoads
    cases hLoads
    exact h
  unfold loadSlot at hLoads ⊢
  split_ifs at hLoads ⊢ <;> exact flows_instr rfl ⟨List.nil_prefix, hLoads⟩ nofun

/-- Storing takes the value, and its kind is known of the slot from then on. -/
theorem flows_storeSlot {kind : Kind} {slot : UInt16} :
    kinds.Flows atLabel (some ⟨kind :: rest, slots⟩) [storeSlot kind slot]
      (some ⟨rest, Function.update slots slot.toNat (some kind)⟩) := by
  unfold storeSlot
  split_ifs with hShort
  · rw [← toNat_short hShort]
    exact flows_instr rfl ⟨⟨rest, rfl⟩, nofun⟩ nofun
  · exact flows_instr rfl ⟨⟨rest, rfl⟩, nofun⟩ nofun

/-- An invocation finds its arguments on the stack, the last of them on top, and below them its
receiver. -/
theorem turns_invoke {kind : InvokeKind} {method : MethodRef} {receiver : List Kind}
    (hReceiver : receiver = if kind.hasReceiver then [.reference] else []) {arguments : List Kind}
    (hArguments : method.parameters.map descriptorKind = arguments) :
    Turns atLabel slots (arguments.reverse ++ receiver ++ rest) [.invoke kind method]
      ((if method.returnsValue then [descriptorKind method.result] else []) ++ rest) := by
  subst hReceiver hArguments
  have hEffect : kinds.effect ⟨(Instr.invoke kind method).takes .int ++ rest, slots⟩
      (.invoke kind method) =
      ⟨(if method.returnsValue then [descriptorKind method.result] else []) ++ rest, slots⟩ := by
    change Cells.mk (_ ++ ((Instr.invoke kind method).takes .int ++ rest).drop
      ((Instr.invoke kind method).takes .int).length) slots = _
    rw [List.drop_left]
    rfl
  rw [Turns, ← hEffect]
  exact flows_instr rfl ⟨List.prefix_append _ _, nofun⟩ nofun

/-- A comparison of two integers turned into a value. Both ways lead to the end with an integer. -/
theorem turns_comparisonCode {comparison : Comparison} {yes stop : String}
    (hYes : atLabel yes = ⟨rest, slots⟩) (hStop : atLabel stop = ⟨.int :: rest, slots⟩) :
    Turns atLabel slots (.int :: .int :: rest) (Assembly.Site.comparisonCode comparison (yes, stop))
      (.int :: rest) := by
  have hTest : Turns atLabel slots (.int :: .int :: rest) [.ifInts comparison yes] rest := by
    refine flows_instr rfl ⟨⟨rest, rfl⟩, nofun⟩ ?_
    rintro _ ⟨⟩
    exact hYes.le
  have hSkip : kinds.Flows atLabel (some ⟨.int :: rest, slots⟩) [.goto stop] none := by
    refine flows_instr rfl ⟨List.nil_prefix, nofun⟩ ?_
    rintro _ ⟨⟩
    exact hStop.le
  have hHere : kinds.Flows atLabel none [.label yes] (some ⟨rest, slots⟩) := hYes ▸ flows_label nofun
  have hEnd : Turns atLabel slots (.int :: rest) [.label stop] (.int :: rest) := by
    have hEnters : ∀ facts, some (Cells.mk (.int :: rest) slots) = some facts → atLabel stop ≤ facts :=
      fun facts hFacts => (hStop.trans (Option.some.inj hFacts)).le
    have hFlows := flows_label hEnters
    rwa [hStop] at hFlows
  have hOne : kinds.Flows atLabel none ([.label yes] ++ ([pushInt 1] ++ [.label stop]))
      (some ⟨.int :: rest, slots⟩) := hHere.append ((turns_pushInt 1).append hEnd)
  exact (hTest.append (turns_pushInt 0)).append (hSkip.append hOne)

end Reading

/-- Nothing is wrong with the kinds in the code, from `start` on: on every way to an instruction there
is what it needs, and all ways to it come with the same stack. -/
def KindCorrect (code : List Instr) (start : Cells) : Prop :=
  ∃ stackAt : Nat → List Kind, ∀ place past i, control.Way code place past → code[place]? = some i →
    kinds.needs (past.foldl kinds.effect start) i ∧
      (past.foldl kinds.effect start).stack = stackAt place

/-- Code that fits has nothing wrong with its kinds on any way, whatever more is known at the start. -/
theorem kindCorrect_of_flows {atLabel : String → Cells} {code : List Instr} {first start : Cells}
    {state : Option Cells} (h : kinds.Flows atLabel (some first) code state) (hStart : first ≤ start) :
    KindCorrect code start := by
  let read (place : Nat) : Option Cells :=
    code[place]?.bind (kinds.before atLabel (kinds.upTo atLabel (some first) code place))
  refine ⟨fun place => ((read place).map (·.stack)).getD [], fun place past i hWay hInstr => ?_⟩
  obtain ⟨cells, hRead, hNeeds, hLe⟩ := h.known_before hStart hWay hInstr
  refine ⟨kinds.needs_mono hLe hNeeds, ?_⟩
  have hHere : read place = some cells :=
    (congrArg (·.bind (kinds.before atLabel (kinds.upTo atLabel (some first) code place))) hInstr).trans
      hRead
  dsimp only
  rw [hHere]
  exact hLe.1.symm

end MiniJava.Stack
