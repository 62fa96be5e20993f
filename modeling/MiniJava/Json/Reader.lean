import MiniJava.Json.Token

/-!
Reading a JSON text. The reader takes one token at a time and keeps the brackets that are still
open on a stack, so the depth of a text costs no recursion. The text holds one value and nothing
else but blanks.
-/

namespace MiniJava.Json

/-- An array or an object that is still open, with the parts already read, the latest first. An object
also keeps the name under which the next part will stand. -/
inductive Frame where
  | array (items : List Json)
  | object (members : List (Str × Json)) (name : Str)
deriving Inhabited

/-- Where the reader stands between two tokens. The position decides which tokens may follow, and it
holds all that was read before. -/
inductive Position where
  /-- A value must follow. -/
  | value (stack : List Frame)
  /-- After an opening bracket: a value or the closing bracket. -/
  | firstItem (stack : List Frame)
  /-- After an opening brace: a name or the closing brace. -/
  | firstName (stack : List Frame)
  /-- After a comma in an object: a name. -/
  | name (members : List (Str × Json)) (stack : List Frame)
  /-- After a name: a colon. -/
  | colon (members : List (Str × Json)) (name : Str) (stack : List Frame)
  /-- After a whole value. -/
  | done (value : Json) (stack : List Frame)
deriving Inhabited

namespace Position

/-- A token with which a value begins: a value of its own, or a bracket that opens one. -/
def begin? (stack : List Frame) : Token → Option Position
  | .null => some (.done .null stack)
  | .bool b => some (.done (.bool b) stack)
  | .number n => some (.done (.number n) stack)
  | .string s => some (.done (.string s) stack)
  | .openArray => some (.firstItem stack)
  | .openObject => some (.firstName stack)
  | _ => none

/-- The position after one more token, if the token may stand there. A comma must be followed by another
part, so that none stands before a closing bracket. -/
def step? : Position → Token → Option Position
  | .value stack, token => begin? stack token
  | .firstItem stack, .closeArray => some (.done (.array []) stack)
  | .firstItem stack, token => begin? (.array [] :: stack) token
  | .firstName stack, .closeObject => some (.done (.object []) stack)
  | .firstName stack, .string key => some (.colon [] key stack)
  | .name members stack, .string key => some (.colon members key stack)
  | .colon members key stack, .colon => some (.value (.object members key :: stack))
  | .done j (.array items :: stack), .comma => some (.value (.array (j :: items) :: stack))
  | .done j (.array items :: stack), .closeArray =>
      some (.done (.array (j :: items).reverse) stack)
  | .done j (.object members key :: stack), .comma =>
      some (.name ((key, j) :: members) stack)
  | .done j (.object members key :: stack), .closeObject =>
      some (.done (.object ((key, j) :: members).reverse) stack)
  | _, _ => none

/-- The value read, once nothing is left open. Before that there is none, even if all parts so far are
whole. -/
def value? : Position → Option Json
  | .done j [] => some j
  | _ => none

end Position

/-- The value that a list of tokens spells. The list must spell one value and be used up by it. -/
def ofTokens? (tokens : List Token) : Option Json :=
  (tokens.foldlM Position.step? (.value [])).bind Position.value?

/-- The value that a text spells. A text that cannot be cut into tokens spells none. -/
def ofChars? (s : List Char) : Option Json := (tokens? [] s).bind ofTokens?

def parse? (s : String) : Option Json := ofChars? s.toList

end MiniJava.Json
