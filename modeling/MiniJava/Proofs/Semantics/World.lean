import MiniJava.Code.Type

/-!
What running code acts on, for programs before and after compilation alike: a heap of objects and
arrays, a record of what was done, and a host that answers every call. A boolean is the word 0 or
1. Whatever is read is checked to be of the sort asked for, and a run stops where it is not, so
nothing need be assumed of a heap or a host.
-/

namespace MiniJava.Semantics

/-- What variables, fields and items hold: a word or a reference. Booleans are words here, since stack
code does not tell them apart. -/
inductive Value where
  | int (value : Int32)
  /-- A reference to a cell of the heap, or to none. -/
  | ref (address : Option Nat)
deriving DecidableEq, Repr, Inhabited

/-- The word for a boolean. Comparisons give it, and it is also what a literal of the source stands
for. -/
def Value.ofBool (b : Bool) : Value := .int (if b then 1 else 0)

/-- The sort of a value, as far as running code can tell: classes are not told apart, nor are arrays by
their items. -/
inductive Shape where
  | int
  | boolean
  | reference
deriving DecidableEq, Repr, Inhabited

namespace Shape

/-- What fields and items hold at first. The value is of the shape, so that reading before writing does
not stop a run. -/
def default : Shape → Value
  | .int | .boolean => .int 0
  | .reference => .ref none

/-- Whether a value is of the shape. Only 0 and 1 are booleans. -/
def holds : Shape → Value → Bool
  | .int, .int _ => true
  | .boolean, .int n => n = 0 || n = 1
  | .reference, .ref _ => true
  | _, _ => false

/-- The shape of the values of a type. Void has no values, and is given a shape only so that every type
has one. -/
def ofType : Code.Ty → Shape
  | .int32 => .int
  | .boolean => .boolean
  | .string | .void | .object _ | .array _ => .reference

/-- The shape of what a call of this type gives back, if it gives anything back. A call of void type is
not asked for a value. -/
def result? (ty : Code.Ty) : Option Shape := if ty.isVoid then none else some (ofType ty)

end Shape

/-- What the heap holds at an address. A field that is not listed has its first value, so a new object
lists none. An array knows the shape of its items, which never changes. -/
inductive Cell where
  | object (className : String) (fields : List (String × Value))
  | array (shape : Shape) (items : List Value)
deriving DecidableEq, Repr, Inhabited

/-- What a call goes to: a class by its full name, an object whose class decides, or an object for one
method of a class. -/
inductive Callee where
  | static (className : String)
  | virtual (address : Nat)
  | special (address : Nat)
deriving DecidableEq, Repr, Inhabited

/-- A call as the host sees it, with the shape of the result that is asked for, if any. The host sees no
more of the code than this. -/
structure Call where
  callee : Callee
  method : String
  arguments : List Value
  result : Option Shape
deriving DecidableEq, Repr, Inhabited

/-- What an observer sees of a run: calls, and writes to the heap. What is read leaves no trace, and
neither does what is allocated. -/
inductive Event where
  | call (call : Call)
  | fieldWrite (address : Nat) (field : String) (value : Value)
  | itemWrite (address place : Nat) (value : Value)
deriving DecidableEq, Repr, Inhabited

/-- The heap, and everything that was done so far, the latest at the end. Both are kept when a run stops,
so that runs can be compared up to that point. -/
structure World where
  heap : List Cell
  trace : List Event
deriving DecidableEq, Repr, Inhabited

/-- Why a run ends without a result. A fault of the program has a cause of its own; faults of the code,
of the heap or of the host are all one cause. -/
inductive Stop where
  | divisionByZero
  | nullReference
  | outOfBounds
  | negativeSize
  /-- A call that does not come back. -/
  | noReturn
  /-- The end of a method that has a value to return. -/
  | fellOff
  /-- A value of the wrong shape, or something that code may not do. -/
  | stuck
deriving DecidableEq, Repr, Inhabited

/-- Answers calls, from all that happened before: with a value and the heap that the call leaves
behind, or not at all. -/
structure Host where
  answer : World → Call → Option (Value × List Cell)

instance : Inhabited Host := ⟨⟨fun _ _ => none⟩⟩

/-- What the code of one method finds when it runs: the host, its receiver, and the full names of
the classes that it mentions. -/
structure Setting where
  host : Host
  self : Value
  className : String → String
deriving Inhabited

/-- Actions change the world or stop; the world is kept when they stop, so that what was done before is
still to be seen. -/
abbrev Act := EStateM Stop World

/-- The word that a value is. A reference is none, and a run that asks for its word is stuck. -/
def toInt : Value → Act Int32
  | .int n => return n
  | .ref _ => throw .stuck

/-- The address to which a value refers. The null reference refers to none, which is a stop of its
own. -/
def toAddress : Value → Act Nat
  | .ref (some address) => return address
  | .ref none => throw .nullReference
  | .int _ => throw .stuck

/-- Whether a word stands for truth, as any but zero does. A branch on one operand asks no more than
this. -/
def truth (v : Value) : Act Bool := return (← toInt v) ≠ 0

def negate (v : Value) : Act Value := return .ofBool (!(← truth v))

/-- Stops as stuck where a value is not of the shape asked for. The heap may hold anything at the start
and the host may answer anything, so that this is asked whenever a value is read or given back. -/
def checked (shape : Shape) (v : Value) : Act Value :=
  if shape.holds v then return v else throw .stuck

/-- Division towards zero. The least integer divided by minus one is itself, as words wrap around. -/
def divide (a b : Int32) : Act Int32 := if b = 0 then throw .divisionByZero else return a / b

/-- Adds an event at the end of the record. Nothing ever removes one. -/
def record (event : Event) : Act Unit :=
  modify fun w => { w with trace := w.trace ++ [event] }

/-- What the heap holds at an address that was allocated. A reference to any other address may come from
the heap at the start or from the host, and a run is stuck there. -/
def cellAt (address : Nat) : Act Cell := do
  match (← get).heap[address]? with
  | some cell => return cell
  | none => throw .stuck

/-- Replaces what the heap holds at an address. Nothing happens at an address that was not allocated. -/
def putCell (address : Nat) (cell : Cell) : Act Unit :=
  modify fun w => { w with heap := w.heap.set address cell }

/-- A new cell takes the next address, behind all others. What the heap holds already stays where
it is. -/
def allocate (cell : Cell) : Act Value :=
  modifyGet fun w => (.ref (some w.heap.length), { w with heap := w.heap ++ [cell] })

/-- An object of the class whose fields have all their first values. Its constructor is called by a step
of its own. -/
def newObject (className : String) : Act Value := allocate (.object className [])

/-- An array of that many items, which have their first values. A negative size stops the run, and
nothing is allocated then. -/
def newArray (shape : Shape) (size : Int32) : Act Value :=
  if size < 0 then throw .negativeSize
  else allocate (.array shape (List.replicate size.toInt.toNat shape.default))

/-- A new array of integers, of a size that is a value. The value is looked at before anything is
allocated. -/
def newIntArray (size : Value) : Act Value := do
  newArray .int (← toInt size)

/-- The class and the fields of an object. An array has no fields, and a run that looks for them is
stuck. -/
def objectAt (address : Nat) : Act (String × List (String × Value)) := do
  match ← cellAt address with
  | .object className fields => return (className, fields)
  | .array _ _ => throw .stuck

/-- The items of an array, which must be of the given shape. A run is stuck at an array whose items are
of another. -/
def arrayAt (address : Nat) (shape : Shape) : Act (List Value) := do
  match ← cellAt address with
  | .array found items => if found = shape then return items else throw .stuck
  | .object _ _ => throw .stuck

/-- A field is read with the shape of its type, and has its first value until it is written. The null
reference has no fields, which stops the run. -/
def readField (object : Value) (field : String) (shape : Shape) : Act Value := do
  let address ← toAddress object
  let (_, fields) ← objectAt address
  checked shape ((fields.lookup field).getD shape.default)

/-- Writing a field is an event, if there is an object to write to. A value of another shape is refused
and leaves no event. -/
def writeField (object : Value) (field : String) (shape : Shape) (v : Value) : Act Unit := do
  let address ← toAddress object
  let (className, fields) ← objectAt address
  let v ← checked shape v
  putCell address (.object className ((field, v) :: fields.filter (·.1 ≠ field)))
  record (.fieldWrite address field v)

/-- The place in a list that an integer stands for. Any other integer is out of bounds, a negative one
too. -/
def placeIn (items : List Value) (place : Int32) : Act Nat :=
  if 0 ≤ place.toInt ∧ place.toInt.toNat < items.length then return place.toInt.toNat
  else throw .outOfBounds

/-- An item is read if the array is there and has a place for it. The null reference is found before the
place is compared with the length. -/
def readItem (array place : Value) (shape : Shape) : Act Value := do
  let place ← toInt place
  let address ← toAddress array
  let items ← arrayAt address shape
  let place ← placeIn items place
  checked shape (items.getD place shape.default)

/-- Writing an item is an event, if the array is there and has a place for it. Nothing is written and
nothing recorded if the run stops here. -/
def writeItem (array place : Value) (shape : Shape) (v : Value) : Act Unit := do
  let place ← toInt place
  let address ← toAddress array
  let items ← arrayAt address shape
  let place ← placeIn items place
  let v ← checked shape v
  putCell address (.array shape (items.set place v))
  record (.itemWrite address place v)

/-- The length of an array, of whatever shape its items are. It is a word, as all integers here. -/
def arrayLength (array : Value) : Act Value := do
  let address ← toAddress array
  match ← cellAt address with
  | .array _ items => return .int (.ofNat items.length)
  | .object _ _ => throw .stuck

/-- A call and the host's answer. What a call without result gives back is not looked at, while a result
must be of the shape that was asked for. -/
def perform (setting : Setting) (call : Call) : Act Value := do
  record (.call call)
  match setting.host.answer (← get) call with
  | none => throw .noReturn
  | some (value, heap) => do
      modify fun w => { w with heap }
      match call.result with
      | none => return value
      | some shape => checked shape value

/-- A call without a receiver, by the full name of the class. The setting resolves the name as it stands
in the program. -/
def callStatic (setting : Setting) (className method : String) (arguments : List Value)
    (result : Option Shape) : Act Value :=
  perform setting ⟨.static (setting.className className), method, arguments, result⟩

/-- A call on an object, which the null reference is not. The class of the object is in the heap, so the
host can choose the method by it. -/
def callVirtual (setting : Setting) (receiver : Value) (method : String) (arguments : List Value)
    (result : Option Shape) : Act Value := do
  perform setting ⟨.virtual (← toAddress receiver), method, arguments, result⟩

/-- A call on an object that is made for this one method of its class, as constructors are. The receiver
must be there as for any other call. -/
def callSpecial (setting : Setting) (receiver : Value) (method : String) (arguments : List Value)
    (result : Option Shape) : Act Value := do
  perform setting ⟨.special (← toAddress receiver), method, arguments, result⟩

end MiniJava.Semantics
