import MiniJava.Stack.Encoding
import Mathlib.Tactic.SplitIfs

/-! Local slots that stack code reads and writes. -/

namespace MiniJava.Stack.Instr

/-- The slot that the instruction reads or writes. No instruction addresses more than one. -/
def slot? : Instr → Option Nat
  | .loadShort _ slot | .storeShort _ slot => some slot.toNat
  | .load _ slot | .store _ slot => some slot.toNat
  | _ => none

/-- Whether the instruction writes the slot that it addresses. All others that address one read it. -/
def isStore : Instr → Bool
  | .storeShort _ _ | .store _ _ => true
  | _ => false

/-- The instruction addresses none but the first `size` slots, and writes none of those before
`first`. -/
def Within (first size : Nat) (i : Instr) : Prop :=
  ∀ slot, i.slot? = some slot → slot < size ∧ (i.isStore = true → first ≤ slot)

theorem within_of_none {first size : Nat} {i : Instr} (h : i.slot? = none) :
    i.Within first size := by
  intro slot hSlot
  rw [h] at hSlot
  cases hSlot

end MiniJava.Stack.Instr

namespace MiniJava.Stack

variable {first size : Nat} {slot : UInt16}

/-- Slots of the short form lose nothing. -/
theorem toNat_short (h : slot ≤ 3) : slot.toUInt8.toNat = slot.toNat := by
  have hNat : slot.toNat ≤ 3 := h
  rw [UInt16.toNat_toUInt8]
  omega

theorem slot?_loadSlot (kind : Kind) : (loadSlot kind slot).slot? = some slot.toNat := by
  unfold loadSlot
  split_ifs with hShort
  · exact congrArg some (toNat_short hShort)
  · rfl

theorem slot?_storeSlot (kind : Kind) : (storeSlot kind slot).slot? = some slot.toNat := by
  unfold storeSlot
  split_ifs with hShort
  · exact congrArg some (toNat_short hShort)
  · rfl

/-- A load may address any slot of the frame, that of the receiver included. -/
theorem within_loadSlot (kind : Kind) (h : slot.toNat < size) :
    (loadSlot kind slot).Within first size := by
  intro other hSlot
  rw [slot?_loadSlot, Option.some.injEq] at hSlot
  refine ⟨hSlot ▸ h, fun hStore => ?_⟩
  unfold loadSlot at hStore
  split_ifs at hStore <;> cases hStore

theorem within_storeSlot (kind : Kind) (h : slot.toNat < size) (hFirst : first ≤ slot.toNat) :
    (storeSlot kind slot).Within first size := by
  intro other hSlot
  rw [slot?_storeSlot, Option.some.injEq] at hSlot
  exact ⟨hSlot ▸ h, fun _ => hSlot ▸ hFirst⟩

end MiniJava.Stack
