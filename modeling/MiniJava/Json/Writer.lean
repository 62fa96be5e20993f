import MiniJava.Json.Basic

/-!
Writing a JSON value: on one line without blanks, or with one part a line and two blanks for each
open bracket.
-/

namespace MiniJava.Json

def hexChar (n : Nat) : Char := Nat.digitChar (n % 16)

/-- A character as a string literal holds it. Only quotes, backslashes and control characters are
escaped; control characters without a short escape are written by number. -/
def escape (c : Char) : List Char :=
  match c with
  | '"' => ['\\', '"']
  | '\\' => ['\\', '\\']
  | '\x08' => ['\\', 'b']
  | '\x0c' => ['\\', 'f']
  | '\n' => ['\\', 'n']
  | '\r' => ['\\', 'r']
  | '\t' => ['\\', 't']
  | c => if c < ' ' then ['\\', 'u', '0', '0', hexChar (c.toNat / 16), hexChar c.toNat] else [c]

/-- A string literal. The literal that spells no text is written as the first high surrogate. -/
def Str.chars : Str → List Char
  | .text s => '"' :: s.toList.flatMap escape ++ ['"']
  | .unpaired => ['"', '\\', 'u', 'd', '8', '0', '0', '"']

/-- The decimal digits of a number, without leading zeros. Zero is one digit. -/
def natChars (n : Nat) : List Char := Nat.toDigits 10 n

def intChars : Int → List Char
  | .ofNat n => natChars n
  | .negSucc n => '-' :: natChars (n + 1)

/-- A number as its digits and its power of ten. No point is written, so that nothing has to be rounded
or shifted. -/
def Numeral.chars (n : Numeral) : List Char :=
  (if n.negative then ['-'] else []) ++ natChars n.mantissa ++
    match n.exponent with
    | none => []
    | some exponent => 'e' :: intChars exponent

def boolChars (b : Bool) : List Char :=
  if b then ['t', 'r', 'u', 'e'] else ['f', 'a', 'l', 's', 'e']

mutual

/-- The value on one line, without blanks. The members of an object keep their order. -/
def chars : Json → List Char
  | .null => ['n', 'u', 'l', 'l']
  | .bool b => boolChars b
  | .number n => n.chars
  | .string s => s.chars
  | .array [] => ['[', ']']
  | .array (j :: rest) => '[' :: (j.chars ++ charsOfItems rest ++ [']'])
  | .object [] => ['\x7b', '\x7d']
  | .object ((name, j) :: rest) =>
      '\x7b' :: (name.chars ++ ':' :: (j.chars ++ charsOfMembers rest ++ ['\x7d']))
termination_by structural j => j

/-- The items after the first, each after a comma. The first is written by the array itself. -/
def charsOfItems : List Json → List Char
  | [] => []
  | j :: rest => ',' :: (j.chars ++ charsOfItems rest)
termination_by structural items => items

/-- The members after the first, each after a comma. A colon stands between the name and the value. -/
def charsOfMembers : List (Str × Json) → List Char
  | [] => []
  | (name, j) :: rest => ',' :: (name.chars ++ ':' :: (j.chars ++ charsOfMembers rest))
termination_by structural members => members

end

/-- The text of the value on one line, as it is put into a file or sent. -/
def compact (j : Json) : String := String.ofList j.chars

/-- A line break and the blanks of a line inside `depth` open brackets, two for each. -/
def newline (depth : Nat) : List Char := '\n' :: List.replicate (2 * depth) ' '

mutual

/-- The value with each part of an array or object on a line of its own; an empty one stays on its
line. -/
def prettyChars (depth : Nat) : Json → List Char
  | .array [] => ['[', ']']
  | .array (j :: rest) =>
      '[' :: (newline (depth + 1) ++ prettyChars (depth + 1) j ++
        prettyItems (depth + 1) rest ++ newline depth ++ [']'])
  | .object [] => ['\x7b', '\x7d']
  | .object ((name, j) :: rest) =>
      '\x7b' :: (newline (depth + 1) ++ name.chars ++ ':' :: ' ' :: (prettyChars (depth + 1) j ++
        prettyMembers (depth + 1) rest ++ newline depth ++ ['\x7d']))
  | j => j.chars
termination_by structural j => j

/-- The items after the first, each on a line of its own behind a comma. All stand equally far to the
right. -/
def prettyItems (depth : Nat) : List Json → List Char
  | [] => []
  | j :: rest => ',' :: (newline depth ++ prettyChars depth j ++ prettyItems depth rest)
termination_by structural items => items

/-- The members after the first, each on a line of its own behind a comma. A blank follows the colon
here. -/
def prettyMembers (depth : Nat) : List (Str × Json) → List Char
  | [] => []
  | (name, j) :: rest =>
      ',' :: (newline depth ++ name.chars ++ ':' :: ' ' :: (prettyChars depth j ++
        prettyMembers depth rest))
termination_by structural members => members

end

/-- The text of the value with one part a line, as a reader wants it. There is no line feed at the
end. -/
def pretty (j : Json) : String := String.ofList (prettyChars 0 j)

end MiniJava.Json
