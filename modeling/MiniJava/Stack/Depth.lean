import Std.Data.HashMap
import MiniJava.Error
import MiniJava.Stack.Instr

/-!
How deep the operand stack grows, found in one walk from the first instruction to the last. After
an instruction that never goes on, the walk continues at the next label, with the depth of the
first jump to it that the walk has met, or with an empty stack if it has met none.
-/

namespace MiniJava.Stack

/-- What the walk knows between two instructions: the depth there, the greatest one so far, whether
control comes to this place, and what jumps have told about the labels ahead. -/
structure Walk where
  depth : Nat
  maxDepth : Nat
  /-- Whether control can come from the instruction before. -/
  reachable : Bool
  /-- The depth at the first jump met to each label. -/
  jumps : Std.HashMap String Nat
deriving Inhabited

namespace Walk

/-- The walk starts with an empty stack, at a place to which control comes. Arguments of a method lie in
slots and not on the stack. -/
def start : Walk := ⟨0, 0, true, ∅⟩

/-- The first depth recorded for a jump to a target stays; later jumps to the same target are not
compared with it. -/
def record (jumps : Std.HashMap String Nat) (target? : Option String) (depth : Nat) :
    Std.HashMap String Nat :=
  match target? with
  | some target => jumps.insertIfNew target depth
  | none => jumps

/-- The walk at a label. If control comes from the instruction before, the depth goes on; else it is that
of the first jump here that was met, and zero if none was. -/
def atLabel (walk : Walk) (name : String) : Walk :=
  { walk with
    depth := if walk.reachable then walk.depth else walk.jumps.getD name 0
    reachable := true }

/-- The walk after an instruction whose operands are there. The greatest depth is measured after the
push, when the operands are gone from the stack. -/
def after (walk : Walk) (i : Instr) : Walk :=
  let depth := walk.depth - i.pops + i.pushes
  { depth
    maxDepth := max walk.maxDepth depth
    reachable := walk.reachable && !i.isUnconditional
    jumps := record walk.jumps i.target? depth }

/-- The walk after one more instruction of `method`. A label asks for nothing; any other instruction asks
for its operands, also where control cannot come. -/
def step (method : String) (walk : Walk) (i : Instr) : Except CompileError Walk :=
  match i with
  | .label name => .ok (walk.atLabel name)
  | i =>
      if walk.depth < i.pops then .error (.stackUnderflow method i.text) else .ok (walk.after i)

end Walk

/-- The greatest depth of a method's code and the depth at its end. Both are numbers of 16 bits, as a
class file states them. -/
structure Usage where
  maxDepth : UInt16
  finalDepth : UInt16
deriving DecidableEq, Repr, Inhabited

/-- A depth as a class file can state it: a number of 16 bits. A greater one is reported with the name of
the method. -/
def depthLimit (method : String) (depth : Nat) : Except CompileError UInt16 :=
  if depth < UInt16.size then .ok (.ofNat depth)
  else .error (.internal
    ("stack depth " ++ toString depth ++ " out of range in '" ++ method ++ "'"))

/-- The greatest depth of the code and the depth at its end, if a class file can state them. The walk
looks at each instruction once and does not follow jumps. -/
def usage (method : String) (code : List Instr) : Except CompileError Usage := do
  let walk ← code.foldlM (Walk.step method) .start
  return ⟨← depthLimit method walk.maxDepth, ← depthLimit method walk.depth⟩

end MiniJava.Stack
