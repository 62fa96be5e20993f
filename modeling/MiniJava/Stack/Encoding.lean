import MiniJava.Stack.Instr

/-!
The shortest instruction that pushes a constant, or that loads or stores a slot.
-/

namespace MiniJava.Stack

/-- The shortest of the five instructions that push a constant. The bounds are those of a short form
without operand, of one byte and of two; any other constant is taken from the pool. -/
def pushInt (value : Int32) : Instr :=
  let n := value.toInt
  if n = -1 then .iconstM1
  else if 0 ≤ n ∧ n ≤ 5 then .iconst (.ofNat n.toNat)
  else if -128 ≤ n ∧ n ≤ 127 then .bipush (.ofInt n)
  else if -32768 ≤ n ∧ n ≤ 32767 then .sipush (.ofInt n)
  else .ldc value

/-- The first four slots have instructions of their own, which leave the slot out of the operands. Any
other slot is written behind the instruction. -/
def loadSlot (kind : Kind) (slot : UInt16) : Instr :=
  if slot ≤ 3 then .loadShort kind slot.toUInt8 else .load kind slot

/-- As for loading, the first four slots have instructions of their own. The kind decides between the two
families of stores; slots themselves have no kind. -/
def storeSlot (kind : Kind) (slot : UInt16) : Instr :=
  if slot ≤ 3 then .storeShort kind slot.toUInt8 else .store kind slot

end MiniJava.Stack
