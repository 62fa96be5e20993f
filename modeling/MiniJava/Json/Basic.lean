/-!
JSON values as a text spells them. Members keep their written order and repeated names stay; a
number keeps its digits and its power of ten, so that nothing is rounded. What a reader of such a
value may refuse (deep nesting, huge numbers, unpaired surrogates) is a check on the value and not
part of the grammar.
-/

namespace MiniJava

namespace Json

/-- What a string literal spells. A literal that names one half of a surrogate pair without the
other half keeps to the grammar but spells no text. -/
inductive Str where
  | text (value : String)
  | unpaired
deriving DecidableEq, Repr, Inhabited

def Str.text? : Str → Option String
  | .text value => some value
  | .unpaired => none

/-- A number literal with the value `mantissa * 10 ^ exponent`, less than zero if `negative`. The
exponent is `none` when the literal is written as an integer, without a point or an exponent. -/
structure Numeral where
  negative : Bool
  mantissa : Nat
  exponent : Option Int
deriving DecidableEq, Repr, Inhabited

namespace Numeral

def ofInt (n : Int) : Numeral := ⟨n < 0, n.natAbs, none⟩

/-- The value of a literal written as an integer. Minus zero is not an integer, since no integer has a
sign of its own besides its value. -/
def int? : Numeral → Option Int
  | ⟨false, n, none⟩ => some n
  | ⟨true, n, none⟩ => if n = 0 then none else some (-n)
  | ⟨_, _, some _⟩ => none

/-- The nearest number with 53 binary digits; of two equally near ones the even one. Numbers below that
length stay as they are. -/
def roundDouble (n : Nat) : Nat :=
  let unit := Nat.pow 2 (n.log2 - 52)
  let quotient := n / unit
  let twice := 2 * (n % unit)
  (if twice < unit ∨ (twice = unit ∧ quotient % 2 = 0) then quotient else quotient + 1) * unit

/-- The longest run of leading digits that stays below 2 ^ 64, and the number of digits after it. These
are the digits that a reader with 64 bits keeps exactly. -/
def leadingDigits (value : Nat) : List Char → Nat × Nat
  | [] => (value, 0)
  | c :: rest =>
      let next := 10 * value + (c.toNat - '0'.toNat)
      if next < Nat.pow 2 64 then leadingDigits next rest else (value, rest.length + 1)

/-- Whether the number stays finite in double arithmetic, where it is the product of its leading
digits and a power of ten, each of them rounded. Leading digits are too few to make a product with
a power below the 280th infinite. -/
def fitsDouble (n : Numeral) : Bool :=
  let (significand, dropped) := leadingDigits 0 (Nat.toDigits 10 n.mantissa)
  let exponent := n.exponent.getD 0 + dropped
  significand = 0 || exponent < 280 ||
    (exponent ≤ 308 &&
      roundDouble (roundDouble significand * roundDouble (Nat.pow 10 exponent.toNat)) < Nat.pow 2 1024)

end Numeral

end Json

/-- A value as a text spells it. Members keep their order and may repeat a name, since it is for the
reader of a record to refuse repetitions. -/
inductive Json where
  | null
  | bool (value : Bool)
  | number (value : Json.Numeral)
  | string (value : Json.Str)
  | array (items : List Json)
  | object (members : List (Json.Str × Json))
deriving Inhabited

namespace Json

/-- The value of a string that spells a text; nothing for any other value, and nothing for a string with
half a character. -/
def text? : Json → Option String
  | .string s => s.text?
  | _ => none

def bool? : Json → Option Bool
  | .bool b => some b
  | _ => none

/-- The value of a number written as an integer. -/
def int? : Json → Option Int
  | .number n => n.int?
  | _ => none

/-- The value of a number written as an integer of 32 bits. A greater one is refused and never cut
off. -/
def int32? (j : Json) : Option Int32 :=
  j.int?.bind fun n =>
    if Int32.minValue.toInt ≤ n ∧ n ≤ Int32.maxValue.toInt then some (Int32.ofInt n) else none

/-- The items of an array, each read by `f`. One item that cannot be read makes the whole list
unreadable. -/
def list? (f : Json → Option α) : Json → Option (List α)
  | .array items => items.mapM f
  | _ => none

/-- A value that may be `null`, which is read as nothing there. Any other value is read by `f`. -/
def nullable? (f : Json → Option α) : Json → Option (Option α)
  | .null => some none
  | j => (f j).map some

def ofInt (n : Int) : Json := .number (.ofInt n)

def ofString (s : String) : Json := .string (.text s)

def ofOption (f : α → Json) : Option α → Json
  | none => .null
  | some a => f a

def ofList (f : α → Json) (items : List α) : Json := .array (items.map f)

/-- An object with the given members, in order. It is for the caller not to give a name twice. -/
def ofFields (fields : List (String × Json)) : Json :=
  .object (fields.map fun (name, value) => (.text name, value))

mutual

/-- Whether arrays and objects nest at most `limit` deep. The check goes no deeper than that, so its cost
does not grow with what lies below. -/
def nestsWithin : Json → (limit : Nat) → Bool
  | .array items, limit + 1 => itemsNestWithin items limit
  | .object members, limit + 1 => membersNestWithin members limit
  | .array _, 0 | .object _, 0 => false
  | _, _ => true
termination_by structural j => j

/-- Every item of an array nests within the limit. -/
def itemsNestWithin : List Json → (limit : Nat) → Bool
  | [], _ => true
  | j :: rest, limit => nestsWithin j limit && itemsNestWithin rest limit
termination_by structural items => items

/-- Every member of an object nests within the limit; names do not nest. -/
def membersNestWithin : List (Str × Json) → (limit : Nat) → Bool
  | [], _ => true
  | (_, j) :: rest, limit => nestsWithin j limit && membersNestWithin rest limit
termination_by structural members => members

end

mutual

/-- Whether every string in the value, member names included, spells a text and every number fits
a double. -/
def legible : Json → Bool
  | .number n => n.fitsDouble
  | .string s => s.text?.isSome
  | .array items => legibleItems items
  | .object members => legibleMembers members
  | _ => true
termination_by structural j => j

def legibleItems : List Json → Bool
  | [] => true
  | j :: rest => j.legible && legibleItems rest
termination_by structural items => items

def legibleMembers : List (Str × Json) → Bool
  | [] => true
  | (name, j) :: rest => name.text?.isSome && j.legible && legibleMembers rest
termination_by structural members => members

end

variable {α : Type}

mutual

/-- Builds a result from the parts upwards. Each step sees the value itself and, for an array or
an object, what its parts gave. -/
def foldParts (leaf : Json → α) (array : Json → List α → α) (object : Json → List (Str × α) → α) :
    Json → α
  | .array items => array (.array items) (foldItems leaf array object items)
  | .object members => object (.object members) (foldMembers leaf array object members)
  | j => leaf j
termination_by structural j => j

/-- What the items of an array give, in their order. Each item is folded once, whatever is asked of the
array. -/
def foldItems (leaf : Json → α) (array : Json → List α → α) (object : Json → List (Str × α) → α) :
    List Json → List α
  | [] => []
  | j :: rest => foldParts leaf array object j :: foldItems leaf array object rest
termination_by structural items => items

/-- What the members of an object give, each under its name. Names are kept as they are written, repeated
ones too. -/
def foldMembers (leaf : Json → α) (array : Json → List α → α)
    (object : Json → List (Str × α) → α) : List (Str × Json) → List (Str × α)
  | [] => []
  | (name, j) :: rest =>
      (name, foldParts leaf array object j) :: foldMembers leaf array object rest
termination_by structural members => members

end

end Json

end MiniJava
