import Std.Data.HashMap
import MiniJava.Code.Unit
import MiniJava.Error

/-!
The local slots of a method. Slot 0 of an instance method holds its receiver; every variable has
a slot of its own, in the order in which the method first names them.
-/

namespace MiniJava.Assembly

/-- The slots given so far. A name keeps the slot that it was given first, however often the method names
it. -/
structure Frame where
  slots : Std.HashMap String UInt16
  /-- The number of slots, the receiver's included. -/
  size : UInt16
deriving Inhabited

namespace Frame

/-- The frame before any variable is named: slot 0 is taken in an instance method, where it holds the
receiver, and free in a static one. -/
def empty (isStatic : Bool) : Frame := ⟨∅, if isStatic then 0 else 1⟩

/-- Gives a name the next slot, unless it has one. The number of slots fits sixteen bits; a method that
needs more of them is refused. -/
def add (frame : Frame) (name : String) : Except CompileError Frame :=
  if frame.slots.contains name then .ok frame
  else if frame.size.toNat + 1 = UInt16.size then .error (.internal "too many local variables")
  else .ok ⟨frame.slots.insert name frame.size, frame.size + 1⟩

/-- The frame of a method, which gives slots to all names of the method: parameters first, then whatever
the body names. -/
def ofMethod (method : Code.Method) : Except CompileError Frame :=
  method.names.foldlM add (empty method.isStatic)

def slot? (frame : Frame) (name : String) : Option UInt16 := frame.slots[name]?

end Frame

end MiniJava.Assembly
