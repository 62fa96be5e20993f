import MiniJava.Json.Basic

/-!
The tokens of a JSON text. Main fact: `Token.next?_length`, a token takes at least one character,
so that a text has finitely many of them.
-/

namespace MiniJava.Json

/-- The characters that may stand between tokens. No other space is one of them, whatever it looks
like. -/
def isBlank (c : Char) : Bool := c = ' ' || c = '\t' || c = '\n' || c = '\r'

/-- A token of a JSON text. Literals come with the values that they spell, so that no later stage looks
at characters. -/
inductive Token where
  | openArray
  | closeArray
  | openObject
  | closeObject
  | comma
  | colon
  | null
  | bool (value : Bool)
  | number (value : Numeral)
  | string (value : Str)
deriving DecidableEq, Repr, Inhabited

/-- One character or one escape of a string literal. An escape may name a surrogate, which is half
of a character. -/
inductive Piece where
  | char (value : Char)
  | half (unit : Nat)
deriving DecidableEq, Repr

def hexDigit? (c : Char) : Option Nat :=
  if '0' ≤ c ∧ c ≤ '9' then some (c.toNat - '0'.toNat)
  else if 'a' ≤ c ∧ c ≤ 'f' then some (c.toNat - 'a'.toNat + 10)
  else if 'A' ≤ c ∧ c ≤ 'F' then some (c.toNat - 'A'.toNat + 10)
  else none

/-- The number that four hexadecimal digits spell. Letters may be small or capital, even within one
number. -/
def hexUnit? (a b c d : Char) : Option Nat := do
  let a ← hexDigit? a
  let b ← hexDigit? b
  let c ← hexDigit? c
  let d ← hexDigit? d
  return ((a * 16 + b) * 16 + c) * 16 + d

/-- What an escape by number stands for: a character, or one half of a pair where the number is a
surrogate. -/
def Piece.ofUnit (unit : Nat) : Piece :=
  if 0xD800 ≤ unit ∧ unit < 0xE000 then .half unit else .char (Char.ofNat unit)

/-- The character that a backslash and `c` stand for. Only these eight letters may follow a backslash,
besides the one for a number. -/
def escaped? (c : Char) : Option Char :=
  match c with
  | '"' => some '"'
  | '\\' => some '\\'
  | '/' => some '/'
  | 'b' => some '\x08'
  | 'f' => some '\x0c'
  | 'n' => some '\n'
  | 'r' => some '\r'
  | 't' => some '\t'
  | _ => none

/-- The pieces up to the closing quote, after those already met (the latest first), and the text
after the quote. Control characters must be escaped. -/
def pieces? (met : List Piece) : List Char → Option (List Piece × List Char)
  | [] => none
  | '"' :: rest => some (met.reverse, rest)
  | '\\' :: 'u' :: a :: b :: c :: d :: rest =>
      match hexUnit? a b c d with
      | some unit => pieces? (.ofUnit unit :: met) rest
      | none => none
  | '\\' :: c :: rest =>
      match escaped? c with
      | some value => pieces? (.char value :: met) rest
      | none => none
  | c :: rest => if c < ' ' then none else pieces? (.char c :: met) rest

/-- Joins each high half with the low half that follows it; the characters already joined come
first, the latest in front. -/
def joinHalves (joined : List Char) : List Piece → Option (List Char)
  | [] => some joined.reverse
  | .char c :: rest => joinHalves (c :: joined) rest
  | .half high :: .half low :: rest =>
      if high < 0xDC00 ∧ 0xDC00 ≤ low then
        joinHalves (Char.ofNat (0x10000 + (high - 0xD800) * 0x400 + (low - 0xDC00)) :: joined) rest
      else none
  | .half _ :: _ => none

/-- What the pieces of a literal spell: nothing that is a text, as soon as one half of a pair stands
alone. -/
def Str.ofPieces (pieces : List Piece) : Str :=
  match joinHalves [] pieces with
  | some chars => .text (String.ofList chars)
  | none => .unpaired

/-- A run of decimal digits, and the text after it. The run may be empty. -/
def digits (s : List Char) : List Char × List Char :=
  (s.takeWhile Char.isDigit, s.dropWhile Char.isDigit)

/-- A run of at least one decimal digit, which is what a number needs wherever digits stand. -/
def digits? (s : List Char) : Option (List Char × List Char) :=
  match digits s with
  | ([], _) => none
  | run => some run

/-- The number that a run of decimal digits spells. Leading zeros do not matter. -/
def natOfDigits (run : List Char) : Nat :=
  run.foldl (fun n c => 10 * n + (c.toNat - '0'.toNat)) 0

/-- The digits before the point: a zero that leads is the only one. A digit behind it then begins another
number, which may not stand there. -/
def whole? : List Char → Option (List Char × List Char)
  | '0' :: rest => some (['0'], rest)
  | s => digits? s

/-- The digits after the point, if there is a point. A point without digits behind it is refused. -/
def fraction? : List Char → Option (Option (List Char) × List Char)
  | '.' :: rest => (digits? rest).map fun (run, rest) => (some run, rest)
  | s => some (none, s)

/-- The sign of an exponent; a missing sign is a plus. The flag says whether it is a minus. -/
def exponentSign : List Char → Bool × List Char
  | '-' :: rest => (true, rest)
  | '+' :: rest => (false, rest)
  | s => (false, s)

/-- The written power of ten, if there is one. A letter for it without digits behind is refused. -/
def exponent? : List Char → Option (Option Int × List Char)
  | c :: rest =>
      if c = 'e' ∨ c = 'E' then
        let (negative, rest) := exponentSign rest
        (digits? rest).map fun (run, rest) =>
          (some (if negative then -(natOfDigits run : Int) else natOfDigits run), rest)
      else some (none, c :: rest)
  | [] => some (none, [])

/-- The number that the written parts make up. Digits behind the point count as digits of the whole
number, and lower the power of ten by as many. -/
def Numeral.ofParts (negative : Bool) (whole : List Char) (fraction : Option (List Char))
    (exponent : Option Int) : Numeral :=
  { negative
    mantissa := natOfDigits (whole ++ fraction.getD [])
    exponent :=
      match fraction, exponent with
      | none, none => none
      | fraction, exponent => some (exponent.getD 0 - (fraction.getD []).length) }

/-- A number without its sign: its whole part, its fraction and its power of ten, of which the last two
may be missing. -/
def magnitude? (negative : Bool) (s : List Char) : Option (Numeral × List Char) := do
  let (whole, s) ← whole? s
  let (fraction, s) ← fraction? s
  let (exponent, s) ← exponent? s
  return (.ofParts negative whole fraction exponent, s)

def number? : List Char → Option (Numeral × List Char)
  | '-' :: rest => magnitude? true rest
  | s => magnitude? false s

/-- The token at the head of the text, and the text after it. Blanks in front are gone already. -/
def Token.next? : List Char → Option (Token × List Char)
  | '[' :: rest => some (.openArray, rest)
  | ']' :: rest => some (.closeArray, rest)
  | '\x7b' :: rest => some (.openObject, rest)
  | '\x7d' :: rest => some (.closeObject, rest)
  | ',' :: rest => some (.comma, rest)
  | ':' :: rest => some (.colon, rest)
  | '"' :: rest => (pieces? [] rest).map fun (pieces, rest) => (.string (.ofPieces pieces), rest)
  | 'n' :: 'u' :: 'l' :: 'l' :: rest => some (.null, rest)
  | 't' :: 'r' :: 'u' :: 'e' :: rest => some (.bool true, rest)
  | 'f' :: 'a' :: 'l' :: 's' :: 'e' :: rest => some (.bool false, rest)
  | s => (number? s).map fun (n, rest) => (.number n, rest)

theorem length_dropWhile_le (p : α → Bool) (s : List α) : (s.dropWhile p).length ≤ s.length :=
  (List.dropWhile_suffix p).length_le

/-- The closing quote at least is taken. -/
theorem pieces?_length {met : List Piece} {s rest : List Char} {pieces : List Piece}
    (h : pieces? met s = some (pieces, rest)) : rest.length < s.length := by
  fun_induction pieces? met s <;> simp_all <;> omega

/-- A run of digits that must be there takes one character or more. -/
theorem digits?_length {s run rest : List Char} (h : digits? s = some (run, rest)) :
    rest.length < s.length := by
  cases s with
  | nil => simp [digits?, digits] at h
  | cons c s =>
      by_cases hc : c.isDigit
      · have hRest := length_dropWhile_le Char.isDigit s
        simp only [digits?, digits, List.takeWhile_cons, List.dropWhile_cons, hc, if_true,
          Option.some.injEq, Prod.mk.injEq] at h
        rw [← h.2, List.length_cons]
        omega
      · simp [digits?, digits, hc] at h

/-- The digits in front of the point take one character or more. -/
theorem whole?_length {s run rest : List Char} (h : whole? s = some (run, rest)) :
    rest.length < s.length := by
  unfold whole? at h
  split at h
  · simp at h; simp [h.2]
  · exact digits?_length h

/-- A fraction may be missing and then takes nothing. -/
theorem fraction?_length {s rest : List Char} {run : Option (List Char)}
    (h : fraction? s = some (run, rest)) : rest.length ≤ s.length := by
  unfold fraction? at h
  split at h
  · obtain ⟨⟨_, _⟩, hDigits, hPair⟩ := Option.map_eq_some_iff.1 h
    have := digits?_length hDigits
    grind
  · grind

theorem exponentSign_length (s : List Char) : (exponentSign s).2.length ≤ s.length := by
  unfold exponentSign
  split <;> simp

/-- An exponent may be missing and then takes nothing. -/
theorem exponent?_length {s rest : List Char} {exponent : Option Int}
    (h : exponent? s = some (exponent, rest)) : rest.length ≤ s.length := by
  unfold exponent? at h
  split at h
  · next c tail =>
      split at h
      · obtain ⟨⟨_, _⟩, hDigits, hPair⟩ := Option.map_eq_some_iff.1 h
        have hShort := digits?_length hDigits
        have hSign := exponentSign_length tail
        grind
      · grind
  · grind

/-- A number takes at least its leading digit. -/
theorem magnitude?_length {negative : Bool} {s rest : List Char} {n : Numeral}
    (h : magnitude? negative s = some (n, rest)) : rest.length < s.length := by
  simp only [magnitude?, Option.bind_eq_bind, Option.bind_eq_some_iff, Prod.exists, Option.pure_def,
    Option.some.injEq, Prod.mk.injEq] at h
  obtain ⟨_, _, hWhole, _, _, hFraction, _, _, hExponent, _, rfl⟩ := h
  have := whole?_length hWhole
  have := fraction?_length hFraction
  have := exponent?_length hExponent
  omega

theorem number?_length {s rest : List Char} {n : Numeral} (h : number? s = some (n, rest)) :
    rest.length < s.length := by
  unfold number? at h
  split at h
  · have := magnitude?_length h
    grind
  · exact magnitude?_length h

/-- A token takes at least one character. -/
theorem Token.next?_length {s rest : List Char} {token : Token}
    (h : Token.next? s = some (token, rest)) : rest.length < s.length := by
  unfold Token.next? at h
  split at h
  case h_7 =>
    obtain ⟨⟨_, _⟩, hPieces, hPair⟩ := Option.map_eq_some_iff.1 h
    have := pieces?_length hPieces
    grind
  case h_11 =>
    obtain ⟨⟨_, _⟩, hNumber, hPair⟩ := Option.map_eq_some_iff.1 h
    have := number?_length hNumber
    grind
  all_goals grind

/-- The tokens of a text, after those already met (the latest first). There is no value if some part of
the text is no token. -/
def tokens? (met : List Token) (s : List Char) : Option (List Token) :=
  if s.dropWhile isBlank = [] then some met.reverse
  else
    match _h : Token.next? (s.dropWhile isBlank) with
    | some (token, rest) => tokens? (token :: met) rest
    | none => none
termination_by s.length
decreasing_by
  have := Token.next?_length ‹_›
  have := length_dropWhile_le isBlank s
  omega

end MiniJava.Json
