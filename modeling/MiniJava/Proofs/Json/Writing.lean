import MiniJava.Json.Writer
import MiniJava.Proofs.Json.Grammar

/-! What is written for a value is a text of the value, on one line and on many. -/

namespace MiniJava.Json

variable {r : List Char}

theorem natOfDigits_natChars (n : Nat) : natOfDigits (natChars n) = n := by
  have hDigits := @Nat.ofDigitChars_ten_toDigits n
  rwa [Nat.ofDigitChars_eq_foldl] at hDigits

theorem natChars_ne_nil (n : Nat) : natChars n ≠ [] := Nat.toDigits_ne_nil

theorem isDigit_of_mem_natChars {n : Nat} : ∀ c ∈ natChars n, c.isDigit = true :=
  fun _ => Nat.isDigit_of_mem_toDigits (by decide) (by decide)

/-- No digits but zero itself begin with a zero. -/
theorem natChars_head {n : Nat} (h : (natChars n).head? = some '0') : n = 0 := by
  induction n using Nat.strongRecOn with
  | ind n ih =>
      unfold natChars at h
      by_cases hSmall : n < 10
      · rw [Nat.toDigits_of_lt_base hSmall] at h
        exact Nat.digitChar_eq_zero.mp (Option.some.inj h)
      · have hLong : Nat.toDigits 10 n = Nat.toDigits 10 (n / 10) ++ [(n % 10).digitChar] :=
          Nat.toDigits_of_base_le (by decide) (by omega)
        obtain ⟨c, rest, hHead⟩ := List.exists_cons_of_ne_nil (natChars_ne_nil (n / 10))
        rw [hLong, show Nat.toDigits 10 (n / 10) = c :: rest from hHead] at h
        have hZero := ih (n / 10) (by omega) (by rw [hHead]; exact h)
        omega

/-- The digits of a number are read as they were written, up to whatever is no digit. There is at least
one of them. -/
theorem digits?_natChars (n : Nat) (h : ∀ c ∈ r.head?, c.isDigit = false) :
    digits? (natChars n ++ r) = some (natChars n, r) :=
  digits?_run (natChars_ne_nil n) isDigit_of_mem_natChars h

/-- The digits of a number are also read as those before a point, for none begins with a needless
zero. -/
theorem whole?_natChars (n : Nat) (h : ∀ c ∈ r.head?, c.isDigit = false) :
    whole? (natChars n ++ r) = some (natChars n, r) := by
  by_cases hZero : n = 0
  · subst hZero
    rfl
  · obtain ⟨c, rest, hHead⟩ := List.exists_cons_of_ne_nil (natChars_ne_nil n)
    have hc : c ≠ '0' := by
      rintro rfl
      exact hZero (natChars_head (by rw [hHead]; rfl))
    have hDigits := digits?_natChars n h
    rw [hHead, List.cons_append] at hDigits ⊢
    rw [whole?, hDigits]
    exact fun _ hSame => hc (List.cons.inj hSame).1

/-- The written power of ten is read as it was. -/
theorem exponent?_intChars (n : Int) : exponent? ('e' :: intChars n) = some (some n, []) := by
  have hDigits (m : Nat) : digits? (natChars m) = some (natChars m, []) := by
    have hRun := @digits?_natChars [] m nofun
    rwa [List.append_nil] at hRun
  rw [exponent?_cons, if_pos (.inl rfl)]
  cases n with
  | ofNat m =>
      obtain ⟨c, rest, hHead⟩ := List.exists_cons_of_ne_nil (natChars_ne_nil m)
      have hc : c.isDigit = true := isDigit_of_mem_natChars c (hHead ▸ List.mem_cons_self)
      have hSign : exponentSign (natChars m) = (false, natChars m) := by
        rw [hHead, exponentSign_cons, if_neg, if_neg]
        · rintro rfl
          cases hc
        · rintro rfl
          cases hc
      rw [intChars, hSign, hDigits]
      simp [natOfDigits_natChars]
  | negSucc m =>
      have hSign : exponentSign ('-' :: natChars (m + 1)) = (true, natChars (m + 1)) := rfl
      rw [intChars, hSign, hDigits]
      simp [natOfDigits_natChars, Int.negSucc_eq]

/-- A literal without a point: its digits, and the power of ten if one is written. -/
theorem magnitude?_natChars (negative : Bool) (n : Nat) {exponent : Option Int}
    (hEnd : ∀ c ∈ r.head?, c.isDigit = false) (hFraction : fraction? r = some (none, r))
    (hExponent : exponent? r = some (exponent, [])) :
    magnitude? negative (natChars n ++ r) = some (⟨negative, n, exponent⟩, []) := by
  have hParts : Numeral.ofParts negative (natChars n) none exponent = ⟨negative, n, exponent⟩ := by
    cases exponent <;> simp [Numeral.ofParts, natOfDigits_natChars]
  simp only [magnitude?, whole?_natChars n hEnd, hFraction, hExponent, Option.bind_eq_bind,
    Option.bind_some, hParts]
  rfl

theorem number?_chars (n : Numeral) : number? n.chars = some (n, []) := by
  obtain ⟨negative, mantissa, exponent⟩ := n
  have hMagnitude : ∃ s, Numeral.chars ⟨negative, mantissa, exponent⟩ =
      (if negative then ['-'] else []) ++ (natChars mantissa ++ s) ∧
        magnitude? negative (natChars mantissa ++ s) = some (⟨negative, mantissa, exponent⟩, []) := by
    cases exponent with
    | none =>
        refine ⟨[], ?_, magnitude?_natChars negative mantissa nofun rfl rfl⟩
        rw [Numeral.chars, List.append_assoc]
    | some e =>
        have hEnd : ∀ c ∈ ('e' :: intChars e).head?, c.isDigit = false := by
          rintro _ ⟨⟩
          rfl
        refine ⟨'e' :: intChars e, ?_,
          magnitude?_natChars negative mantissa hEnd rfl (exponent?_intChars e)⟩
        rw [Numeral.chars, List.append_assoc]
  obtain ⟨s, hChars, hMagnitude⟩ := hMagnitude
  rw [hChars]
  cases negative with
  | true => exact hMagnitude
  | false =>
      obtain ⟨c, rest, hHead⟩ := List.exists_cons_of_ne_nil (natChars_ne_nil mantissa)
      have hc : c.isDigit = true := isDigit_of_mem_natChars c (hHead ▸ List.mem_cons_self)
      rw [hHead] at hMagnitude ⊢
      rw [if_neg Bool.false_ne_true, List.nil_append, List.cons_append, number?]
      · exact hMagnitude
      · intro _ hSame
        obtain ⟨rfl, -⟩ := List.cons.inj hSame
        cases hc

theorem hexDigit?_hexChar (n : Nat) : hexDigit? (hexChar n) = some (n % 16) := by
  have hAll : ∀ d < 16, hexDigit? (Nat.digitChar d) = some d := by decide
  exact hAll _ (Nat.mod_lt n (by decide))

/-- A character is read back from whatever is written for it, an escape or the character itself. -/
theorem pieces?_escape (met : List Piece) (c : Char) :
    pieces? met (escape c ++ r) = pieces? (.char c :: met) r := by
  unfold escape
  split
  case h_8 hQuote hBackslash _ _ _ _ _ =>
    split
    next hControl =>
      have hCode : c.toNat < 32 := hControl
      have hUnit : hexUnit? '0' '0' (hexChar (c.toNat / 16)) (hexChar c.toNat) = some c.toNat := by
        have hZero : hexDigit? '0' = some 0 := rfl
        simp only [hexUnit?, hZero, hexDigit?_hexChar, Option.bind_eq_bind, Option.bind_some,
          Option.pure_def, Option.some.injEq]
        omega
      have hPiece : Piece.ofUnit c.toNat = .char c := by
        rw [Piece.ofUnit, if_neg (by omega), Char.ofNat_toNat]
      rw [← hPiece]
      exact pieces?_unit hUnit
    next hPlain => exact pieces?_plain hQuote hBackslash hPlain
  all_goals exact pieces?_escaped rfl

theorem pieces?_escaped_chars (met : List Piece) (chars : List Char) :
    pieces? met (chars.flatMap escape ++ '"' :: r) = some (met.reverse ++ chars.map .char, r) := by
  induction chars generalizing met with
  | nil => simp [pieces?]
  | cons c chars ih =>
      rw [List.flatMap_cons, List.append_assoc, pieces?_escape, ih]
      simp

/-- Characters are joined as they are, since no half of a pair is among them. So a text is spelt by its
own characters. -/
theorem joinHalves_chars (joined chars : List Char) :
    joinHalves joined (chars.map .char) = some (joined.reverse ++ chars) := by
  induction chars generalizing joined with
  | nil => simp [joinHalves]
  | cons c chars ih =>
      rw [List.map_cons, joinHalves, ih]
      simp

theorem next?_string (s : Str) : Token.next? s.chars = some (.string s, []) := by
  cases s with
  | text s =>
      have hPieces : pieces? [] (s.toList.flatMap escape ++ ['"']) = some (s.toList.map .char, []) :=
        pieces?_escaped_chars [] s.toList
      have hText : Str.ofPieces (s.toList.map .char) = .text s := by
        rw [Str.ofPieces, joinHalves_chars]
        simp
      rw [Str.chars, List.cons_append, Token.next?, hPieces]
      simp [hText]
  | unpaired => rfl

/-- The literal that is written for a token. Of the many that spell it, this is the one that the writer
uses. -/
def Token.chars : Token → List Char
  | .openArray => ['[']
  | .closeArray => [']']
  | .openObject => ['\x7b']
  | .closeObject => ['\x7d']
  | .comma => [',']
  | .colon => [':']
  | .null => ['n', 'u', 'l', 'l']
  | .bool b => boolChars b
  | .number n => n.chars
  | .string s => s.chars

theorem Token.spells_chars (token : Token) : token.Spells token.chars := by
  cases token with
  | bool b => cases b <;> rfl
  | number n =>
      have hNumber := number?_chars n
      obtain ⟨c, rest, hHead, hc⟩ := number?_head hNumber
      rw [Spells, chars]
      rw [hHead] at hNumber ⊢
      rw [Token.next?_number hc, hNumber]
      rfl
  | string s => exact next?_string s
  | _ => rfl

section

variable {literals rest : List (List Char)} {s t : List Char}

theorem Spaced.blanks {blanks : List Char} (hBlanks : ∀ c ∈ blanks, isBlank c = true)
    (h : Spaced literals s) : Spaced literals (blanks ++ s) := by
  cases h with
  | nil hMore => exact .nil (List.forall_mem_append.mpr ⟨hBlanks, hMore⟩)
  | cons hMore hRest =>
      rw [← List.append_assoc]
      exact .cons (List.forall_mem_append.mpr ⟨hBlanks, hMore⟩) hRest

theorem Spaced.append (h : Spaced literals s) (hRest : Spaced rest t) :
    Spaced (literals ++ rest) (s ++ t) := by
  induction h with
  | nil hBlanks => exact hRest.blanks hBlanks
  | cons hBlanks _ ih =>
      rw [List.append_assoc, List.append_assoc]
      exact .cons hBlanks ih

theorem Spaced.literal (literal : List Char) : Spaced [literal] literal := by
  have hOne : Spaced [literal] ([] ++ (literal ++ [])) := .cons nofun (.nil nofun)
  rwa [List.append_nil] at hOne

theorem Spaced.token (token : Token) (h : Spaced literals s) :
    Spaced (token.chars :: literals) (token.chars ++ s) :=
  (Spaced.literal token.chars).append h

end

/-- The tokens of a value, as they are written, each as a literal of its own. -/
def literals (tokens : List Token) : List (List Char) := tokens.map Token.chars

theorem literals_cons (token : Token) (tokens : List Token) :
    literals (token :: tokens) = token.chars :: literals tokens := rfl

theorem literals_append (tokens rest : List Token) :
    literals (tokens ++ rest) = literals tokens ++ literals rest := List.map_append

theorem spells_literals (tokens : List Token) :
    List.Forall₂ Token.Spells tokens (literals tokens) := by
  rw [literals, List.forall₂_map_right_iff]
  exact List.forall₂_same.mpr fun token _ => token.spells_chars

section

variable {items : List Json} {members : List (Str × Json)}

/-- The items behind the first of an array that is written on one line, if all items are spaced. -/
theorem spaced_items (h : ∀ j ∈ items, Spaced (literals j.tokens) j.chars) :
    Spaced (literals (itemTokens items)) (charsOfItems items) := by
  induction items with
  | nil => exact .nil nofun
  | cons j rest ih =>
      obtain ⟨hFirst, hRest⟩ := List.forall_mem_cons.mp h
      rw [itemTokens, literals_cons, literals_append, charsOfItems]
      exact .token .comma (hFirst.append (ih hRest))

/-- The members behind the first of an object that is written on one line, if all values are spaced. -/
theorem spaced_members (h : ∀ m ∈ members, Spaced (literals m.2.tokens) m.2.chars) :
    Spaced (literals (memberTokens members)) (charsOfMembers members) := by
  induction members with
  | nil => exact .nil nofun
  | cons m rest ih =>
      obtain ⟨name, j⟩ := m
      obtain ⟨hFirst, hRest⟩ := List.forall_mem_cons.mp h
      rw [memberTokens, literals_cons, literals_cons, literals_cons, literals_append, charsOfMembers]
      exact .token .comma (.token (.string name) (.token .colon (hFirst.append (ih hRest))))

/-- On one line there are no blanks at all, so it is the literals of the tokens put together. -/
theorem spaced_chars (j : Json) : Spaced (literals j.tokens) j.chars := by
  induction j with
  | array items ih =>
      cases items with
      | nil => exact .token .openArray (.literal _)
      | cons j rest =>
          obtain ⟨hFirst, hRest⟩ := List.forall_mem_cons.mp ih
          rw [tokens, literals_cons, literals_append, literals_append, chars]
          exact .token .openArray ((hFirst.append (spaced_items hRest)).append (.literal _))
  | object members ih =>
      cases members with
      | nil => exact .token .openObject (.literal _)
      | cons m rest =>
          obtain ⟨name, j⟩ := m
          obtain ⟨hFirst, hRest⟩ := List.forall_mem_cons.mp ih
          rw [tokens, literals_cons, literals_cons, literals_cons, literals_append, literals_append,
            chars]
          exact .token .openObject (.token (.string name) (.token .colon
            ((hFirst.append (spaced_members hRest)).append (.literal _))))
  | _ => exact .literal _

theorem isBlank_space : ∀ c ∈ [' '], isBlank c = true := by simp [isBlank]

theorem isBlank_newline (depth : Nat) : ∀ c ∈ newline depth, isBlank c = true := by
  intro c hc
  rcases List.mem_cons.mp hc with rfl | hc
  · rfl
  · rw [List.eq_of_mem_replicate hc]
    rfl

/-- The items of an array on lines of their own: a line feed and the indent are blanks like any
others. -/
theorem spaced_prettyItems {depth : Nat}
    (h : ∀ j ∈ items, ∀ depth, Spaced (literals j.tokens) (prettyChars depth j)) :
    Spaced (literals (itemTokens items)) (prettyItems depth items) := by
  induction items with
  | nil => exact .nil nofun
  | cons j rest ih =>
      obtain ⟨hFirst, hRest⟩ := List.forall_mem_cons.mp h
      rw [itemTokens, literals_cons, literals_append, prettyItems, List.append_assoc]
      exact .token .comma (((hFirst depth).append (ih hRest)).blanks (isBlank_newline depth))

/-- The members of an object on lines of their own, with a blank behind each colon. -/
theorem spaced_prettyMembers {depth : Nat}
    (h : ∀ m ∈ members, ∀ depth, Spaced (literals m.2.tokens) (prettyChars depth m.2)) :
    Spaced (literals (memberTokens members)) (prettyMembers depth members) := by
  induction members with
  | nil => exact .nil nofun
  | cons m rest ih =>
      obtain ⟨name, j⟩ := m
      obtain ⟨hFirst, hRest⟩ := List.forall_mem_cons.mp h
      rw [memberTokens, literals_cons, literals_cons, literals_cons, literals_append, prettyMembers,
        List.append_assoc]
      exact .token .comma (.blanks (isBlank_newline depth) (.token (.string name) (.token .colon
        (((hFirst depth).append (ih hRest)).blanks isBlank_space))))

/-- On many lines there are blanks between some tokens, at whatever depth the value stands. -/
theorem spaced_prettyChars (j : Json) (depth : Nat) :
    Spaced (literals j.tokens) (prettyChars depth j) := by
  have hClose (depth : Nat) (literal : List Char) : Spaced [literal] (newline depth ++ literal) :=
    (Spaced.literal literal).blanks (isBlank_newline depth)
  induction j generalizing depth with
  | array items ih =>
      cases items with
      | nil => exact .token .openArray (.literal _)
      | cons j rest =>
          obtain ⟨hFirst, hRest⟩ := List.forall_mem_cons.mp ih
          rw [tokens, literals_cons, literals_append, literals_append, prettyChars]
          simp only [List.append_assoc]
          exact .token .openArray (.blanks (isBlank_newline _) ((hFirst _).append
            ((spaced_prettyItems hRest).append (hClose depth _))))
  | object members ih =>
      cases members with
      | nil => exact .token .openObject (.literal _)
      | cons m rest =>
          obtain ⟨name, j⟩ := m
          obtain ⟨hFirst, hRest⟩ := List.forall_mem_cons.mp ih
          rw [tokens, literals_cons, literals_cons, literals_cons, literals_append, literals_append,
            prettyChars]
          simp only [List.append_assoc]
          exact .token .openObject (.blanks (isBlank_newline _) (.token (.string name) (.token .colon
            (.blanks isBlank_space ((hFirst _).append ((spaced_prettyMembers hRest).append (hClose depth _)))))))
  | _ => exact .literal _

end

theorem isText_compact (j : Json) : j.IsText j.compact := by
  refine ⟨literals j.tokens, spells_literals _, ?_⟩
  rw [compact, String.toList_ofList]
  exact spaced_chars j

theorem isText_pretty (j : Json) : j.IsText j.pretty := by
  refine ⟨literals j.tokens, spells_literals _, ?_⟩
  rw [pretty, String.toList_ofList]
  exact spaced_prettyChars j 0

end MiniJava.Json
