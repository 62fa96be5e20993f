import Mathlib.Data.List.Chain
import Mathlib.Data.List.TakeWhile
import MiniJava.Json.Token

/-! Tokens are read from a text whatever the blanks between them. A literal is the text of one token; the
reader takes it as that token wherever it stands, and a number ends only where it cannot go on. What the
reader does not take does not matter either: it may be cut off. -/

namespace MiniJava.Json

variable {l r s : List Char}

section

variable {met : List Piece}

theorem pieces?_unit {a b c d : Char} {unit : Nat} (h : hexUnit? a b c d = some unit) :
    pieces? met ('\\' :: 'u' :: a :: b :: c :: d :: r) = pieces? (.ofUnit unit :: met) r := by
  rw [pieces?, h]

theorem pieces?_escaped {c value : Char} (h : escaped? c = some value) :
    pieces? met ('\\' :: c :: r) = pieces? (.char value :: met) r := by
  have hLetter : c ≠ 'u' := by
    rintro rfl
    cases h
  rw [pieces?, h]
  exact fun _ _ _ _ _ hc => (hLetter hc).elim

theorem pieces?_plain {c : Char} (hQuote : c ≠ '"') (hEscape : c ≠ '\\') (hControl : ¬c < ' ') :
    pieces? met (c :: r) = pieces? (.char c :: met) r := by
  rw [pieces?, if_neg hControl]
  · exact hQuote
  · exact fun _ _ _ _ _ hc => (hEscape hc).elim
  · exact fun _ _ hc => (hEscape hc).elim

/-- What closes a string literal is inside it, so that nothing behind it matters, not even another
quote. -/
theorem pieces?_append {pieces : List Piece} (h : pieces? met l = some (pieces, r)) :
    pieces? met (l ++ s) = some (pieces, r ++ s) := by
  fun_induction pieces? met l with
  | case1 => cases h
  | case2 =>
      cases h
      rfl
  | case3 met a b c d rest unit hUnit ih =>
      rw [List.cons_append, List.cons_append, List.cons_append, List.cons_append, List.cons_append,
        List.cons_append, pieces?_unit hUnit]
      exact ih h
  | case4 => cases h
  | case5 met c rest _ value hValue ih =>
      rw [List.cons_append, List.cons_append, pieces?_escaped hValue]
      exact ih h
  | case6 => cases h
  | case7 => cases h
  | case8 met c rest hQuote _ hEscape hControl ih =>
      have hNoEscape : c ≠ '\\' := by
        rintro rfl
        cases rest with
        | nil => cases h
        | cons d rest => exact hEscape d rest rfl rfl
      rw [List.cons_append, pieces?_plain hQuote hNoEscape hControl]
      exact ih h

theorem pieces?_cut {pieces : List Piece} (h : pieces? met l = some (pieces, r ++ s)) :
    ∃ l', l = l' ++ s ∧ pieces? met l' = some (pieces, r) := by
  fun_induction pieces? met l with
  | case1 => cases h
  | case2 =>
      cases h
      exact ⟨'"' :: r, rfl, rfl⟩
  | case3 met a b c d rest unit hUnit ih =>
      obtain ⟨l', rfl, hCut⟩ := ih h
      exact ⟨'\\' :: 'u' :: a :: b :: c :: d :: l', rfl, (pieces?_unit hUnit).trans hCut⟩
  | case4 => cases h
  | case5 met c rest _ value hValue ih =>
      obtain ⟨l', rfl, hCut⟩ := ih h
      exact ⟨'\\' :: c :: l', rfl, (pieces?_escaped hValue).trans hCut⟩
  | case6 => cases h
  | case7 => cases h
  | case8 met c rest hQuote _ hEscape hControl ih =>
      have hNoEscape : c ≠ '\\' := by
        rintro rfl
        cases rest with
        | nil => cases h
        | cons d rest => exact hEscape d rest rfl rfl
      obtain ⟨l', rfl, hCut⟩ := ih h
      exact ⟨c :: l', rfl, (pieces?_plain hQuote hNoEscape hControl).trans hCut⟩

end

/-- No number goes on with the text: it is empty, or begins with a sign that no number holds. -/
def Stops (s : List Char) : Prop := ∀ c ∈ s.head?, c.isDigit = false ∧ c ≠ '.' ∧ c ≠ 'e' ∧ c ≠ 'E'

theorem stops_nil : Stops [] := nofun

theorem stops_cons {c : Char} (h : c.isDigit = false ∧ c ≠ '.' ∧ c ≠ 'e' ∧ c ≠ 'E') : Stops (c :: s) := by
  rintro _ ⟨⟩
  exact h

theorem digits_run {run : List Char} (hRun : ∀ c ∈ run, c.isDigit = true)
    (hEnd : ∀ c ∈ r.head?, c.isDigit = false) : digits (run ++ r) = (run, r) := by
  have hTake : r.takeWhile Char.isDigit = [] := by
    cases r with
    | nil => rfl
    | cons c r => simp [hEnd c rfl]
  have hDrop : r.dropWhile Char.isDigit = r := by
    cases r with
    | nil => rfl
    | cons c r => simp [hEnd c rfl]
  rw [digits, List.takeWhile_append_of_pos hRun, List.dropWhile_append_of_pos hRun, hTake, hDrop,
    List.append_nil]

theorem digits?_run {run : List Char} (hNil : run ≠ []) (hRun : ∀ c ∈ run, c.isDigit = true)
    (hEnd : ∀ c ∈ r.head?, c.isDigit = false) : digits? (run ++ r) = some (run, r) := by
  obtain ⟨c, rest, rfl⟩ := List.exists_cons_of_ne_nil hNil
  rw [digits?, digits_run hRun hEnd]

/-- A run that was taken is not empty, holds digits only, and goes as far as it can. -/
theorem digits?_eq_some {run : List Char} (h : digits? l = some (run, r)) :
    run ≠ [] ∧ (∀ c ∈ run, c.isDigit = true) ∧ (∀ c ∈ r.head?, c.isDigit = false) ∧ l = run ++ r := by
  unfold digits? at h
  split at h
  · cases h
  next hNil =>
    obtain ⟨rfl, rfl⟩ : l.takeWhile Char.isDigit = run ∧ l.dropWhile Char.isDigit = r := by
      simpa [digits] using h
    refine ⟨fun hRun => hNil _ (by rw [digits, hRun]), ?_, ?_, List.takeWhile_append_dropWhile.symm⟩
    · exact List.all_eq_true.mp List.all_takeWhile
    · intro c hc
      have hHead := List.head?_dropWhile_not Char.isDigit l
      rw [hc] at hHead
      exact hHead

/-- Text behind what was left over does not matter, if no number goes on with it. -/
theorem digits?_append {run : List Char} (h : digits? l = some (run, r)) (hs : Stops s) :
    digits? (l ++ s) = some (run, r ++ s) := by
  obtain ⟨hNil, hRun, hEnd, rfl⟩ := digits?_eq_some h
  rw [List.append_assoc]
  refine digits?_run hNil hRun ?_
  cases r with
  | nil => exact fun c hc => (hs c hc).1
  | cons => exact hEnd

theorem digits?_cut {run : List Char} (h : digits? l = some (run, r ++ s)) :
    ∃ l', l = l' ++ s ∧ digits? l' = some (run, r) := by
  obtain ⟨hNil, hRun, hEnd, rfl⟩ := digits?_eq_some h
  refine ⟨run ++ r, (List.append_assoc _ _ _).symm, digits?_run hNil hRun ?_⟩
  cases r with
  | nil => nofun
  | cons => exact hEnd

/-- The digits before the point: a zero alone, or a run that begins with another digit. -/
theorem whole?_append {run : List Char} (h : whole? l = some (run, r)) (hs : Stops s) :
    whole? (l ++ s) = some (run, r ++ s) := by
  unfold whole? at h
  split at h
  · cases h
    rfl
  next hZero =>
    obtain ⟨hNil, hRun, -, hText⟩ := digits?_eq_some h
    obtain ⟨c, rest, rfl⟩ := List.exists_cons_of_ne_nil hNil
    subst hText
    have hc : c ≠ '0' := fun hc => hZero _ (by rw [hc]; rfl)
    have hDigits := digits?_append h hs
    rw [List.cons_append, List.cons_append] at hDigits ⊢
    rw [whole?, hDigits]
    exact fun _ hSame => hc (List.cons.inj hSame).1

theorem whole?_cut {run : List Char} (h : whole? l = some (run, r ++ s)) :
    ∃ l', l = l' ++ s ∧ whole? l' = some (run, r) := by
  unfold whole? at h
  split at h
  · cases h
    exact ⟨'0' :: r, rfl, rfl⟩
  next hZero =>
    obtain ⟨l', rfl, hDigits⟩ := digits?_cut h
    refine ⟨l', rfl, ?_⟩
    rw [whole?, hDigits]
    rintro rest rfl
    exact hZero (rest ++ s) rfl

theorem fraction?_append {run : Option (List Char)} (h : fraction? l = some (run, r)) (hs : Stops s) :
    fraction? (l ++ s) = some (run, r ++ s) := by
  unfold fraction? at h
  split at h
  · obtain ⟨⟨run, rest⟩, hDigits, hPair⟩ := Option.map_eq_some_iff.mp h
    cases hPair
    rw [List.cons_append, fraction?, digits?_append hDigits hs]
    rfl
  next hPoint =>
    cases h
    rw [fraction?]
    rintro rest hText
    cases l with
    | nil => exact (hs '.' (by rw [show s = '.' :: rest from hText]; rfl)).2.1 rfl
    | cons c l =>
        obtain ⟨rfl, -⟩ := List.cons.inj hText
        exact hPoint l rfl

theorem fraction?_cut {run : Option (List Char)} (h : fraction? l = some (run, r ++ s)) :
    ∃ l', l = l' ++ s ∧ fraction? l' = some (run, r) := by
  unfold fraction? at h
  split at h
  · obtain ⟨⟨run, rest⟩, hDigits, hPair⟩ := Option.map_eq_some_iff.mp h
    cases hPair
    obtain ⟨l', rfl, hCut⟩ := digits?_cut hDigits
    refine ⟨'.' :: l', rfl, ?_⟩
    rw [fraction?, hCut]
    rfl
  next hPoint =>
    cases h
    refine ⟨r, rfl, ?_⟩
    rw [fraction?]
    rintro rest rfl
    exact hPoint (rest ++ s) rfl

theorem exponentSign_cons (c : Char) (s : List Char) :
    exponentSign (c :: s) =
      if c = '-' then (true, s) else if c = '+' then (false, s) else (false, c :: s) := by
  unfold exponentSign
  split <;> simp_all

/-- A sign that is written or missing stays so, since digits follow. -/
theorem exponentSign_append (h : l ≠ []) :
    exponentSign (l ++ s) = ((exponentSign l).1, (exponentSign l).2 ++ s) := by
  obtain ⟨c, rest, rfl⟩ := List.exists_cons_of_ne_nil h
  rw [List.cons_append, exponentSign_cons, exponentSign_cons]
  split
  · rfl
  · split <;> rfl

/-- A sign is the first character, if there is one, so that cutting off later text does not change it. -/
theorem exponentSign_cut (h : (exponentSign l).2 = r ++ s) (hNil : r ≠ []) :
    ∃ l', l = l' ++ s ∧ exponentSign l' = ((exponentSign l).1, r) := by
  obtain ⟨d, tail, rfl⟩ := List.exists_cons_of_ne_nil hNil
  cases l with
  | nil => cases h
  | cons c rest =>
      rw [exponentSign_cons] at h ⊢
      split_ifs at h ⊢ with hMinus hPlus
      · subst hMinus h
        exact ⟨'-' :: d :: tail, rfl, rfl⟩
      · subst hPlus h
        exact ⟨'+' :: d :: tail, rfl, rfl⟩
      · obtain ⟨rfl, rfl⟩ := List.cons.inj h
        refine ⟨c :: tail, rfl, ?_⟩
        rw [exponentSign_cons, if_neg hMinus, if_neg hPlus]

theorem exponent?_cons (c : Char) (s : List Char) : exponent? (c :: s) =
    if c = 'e' ∨ c = 'E' then
      (digits? (exponentSign s).2).map fun (run, rest) =>
        (some (if (exponentSign s).1 then -(natOfDigits run : Int) else natOfDigits run), rest)
    else some (none, c :: s) := rfl

theorem exponent?_append {exponent : Option Int} (h : exponent? l = some (exponent, r))
    (hs : Stops s) : exponent? (l ++ s) = some (exponent, r ++ s) := by
  cases l with
  | nil =>
      cases h
      cases s with
      | nil => rfl
      | cons c s =>
          have hLetter : ¬(c = 'e' ∨ c = 'E') := not_or.mpr (hs c rfl).2.2
          rw [List.nil_append, exponent?_cons, if_neg hLetter]
  | cons c rest =>
      rw [List.cons_append]
      by_cases hLetter : c = 'e' ∨ c = 'E'
      · rw [exponent?_cons, if_pos hLetter] at h ⊢
        obtain ⟨⟨run, tail⟩, hDigits, hPair⟩ := Option.map_eq_some_iff.mp h
        cases hPair
        have hNil : rest ≠ [] := by
          rintro rfl
          cases hDigits
        rw [exponentSign_append hNil, digits?_append hDigits hs]
        rfl
      · rw [exponent?_cons, if_neg hLetter] at h ⊢
        cases h
        rfl

theorem exponent?_cut {exponent : Option Int} (h : exponent? l = some (exponent, r ++ s)) :
    ∃ l', l = l' ++ s ∧ exponent? l' = some (exponent, r) := by
  cases l with
  | nil =>
      obtain ⟨rfl, hNil⟩ := Prod.mk.inj (Option.some.inj h)
      obtain ⟨rfl, rfl⟩ := List.append_eq_nil_iff.mp hNil.symm
      exact ⟨[], rfl, rfl⟩
  | cons c rest =>
      by_cases hLetter : c = 'e' ∨ c = 'E'
      · rw [exponent?_cons, if_pos hLetter] at h
        obtain ⟨⟨run, tail⟩, hDigits, hPair⟩ := Option.map_eq_some_iff.mp h
        obtain ⟨rfl, rfl⟩ := Prod.mk.inj hPair
        obtain ⟨digits, hText, hCut⟩ := digits?_cut hDigits
        have hNil : digits ≠ [] := by
          rintro rfl
          cases hCut
        obtain ⟨l', rfl, hSign⟩ := exponentSign_cut hText hNil
        refine ⟨c :: l', rfl, ?_⟩
        rw [exponent?_cons, if_pos hLetter, hSign, hCut]
        rfl
      · rw [exponent?_cons, if_neg hLetter] at h
        obtain ⟨rfl, hText⟩ := Prod.mk.inj (Option.some.inj h)
        refine ⟨r, hText, ?_⟩
        cases r with
        | nil => rfl
        | cons d tail =>
            obtain ⟨rfl, -⟩ := List.cons.inj hText
            rw [exponent?_cons, if_neg hLetter]

/-- The three parts of a number one behind another. Only where the last of them ends does it matter what
follows. -/
theorem magnitude?_append {negative : Bool} {n : Numeral} (h : magnitude? negative l = some (n, r))
    (hs : Stops s) : magnitude? negative (l ++ s) = some (n, r ++ s) := by
  simp only [magnitude?, Option.bind_eq_bind, Option.bind_eq_some_iff, Prod.exists, Option.pure_def,
    Option.some.injEq, Prod.mk.injEq] at h ⊢
  obtain ⟨whole, _, hWhole, fraction, _, hFraction, exponent, _, hExponent, rfl, rfl⟩ := h
  exact ⟨whole, _, whole?_append hWhole hs, fraction, _, fraction?_append hFraction hs, exponent, _,
    exponent?_append hExponent hs, rfl, rfl⟩

theorem magnitude?_cut {negative : Bool} {n : Numeral} (h : magnitude? negative l = some (n, r ++ s)) :
    ∃ l', l = l' ++ s ∧ magnitude? negative l' = some (n, r) := by
  simp only [magnitude?, Option.bind_eq_bind, Option.bind_eq_some_iff, Prod.exists, Option.pure_def,
    Option.some.injEq, Prod.mk.injEq] at h ⊢
  obtain ⟨whole, _, hWhole, fraction, _, hFraction, exponent, _, hExponent, rfl, rfl⟩ := h
  obtain ⟨_, rfl, hExponentCut⟩ := exponent?_cut hExponent
  obtain ⟨_, rfl, hFractionCut⟩ := fraction?_cut hFraction
  obtain ⟨l', rfl, hWholeCut⟩ := whole?_cut hWhole
  exact ⟨l', rfl, whole, _, hWholeCut, fraction, _, hFractionCut, exponent, _, hExponentCut, rfl, rfl⟩

theorem whole?_head {run : List Char} (h : whole? l = some (run, r)) :
    ∃ c rest, l = c :: rest ∧ c.isDigit = true := by
  unfold whole? at h
  split at h
  · exact ⟨_, _, rfl, by decide⟩
  · obtain ⟨hNil, hRun, -, rfl⟩ := digits?_eq_some h
    obtain ⟨c, rest, rfl⟩ := List.exists_cons_of_ne_nil hNil
    exact ⟨c, rest ++ r, rfl, hRun c List.mem_cons_self⟩

/-- A number begins with its sign or with a digit. -/
theorem number?_head {n : Numeral} (h : number? l = some (n, r)) :
    ∃ c rest, l = c :: rest ∧ (c = '-' ∨ c.isDigit = true) := by
  unfold number? at h
  split at h
  · exact ⟨_, _, rfl, .inl rfl⟩
  · simp only [magnitude?, Option.bind_eq_bind, Option.bind_eq_some_iff, Prod.exists] at h
    obtain ⟨whole, _, hWhole, -⟩ := h
    obtain ⟨c, rest, rfl, hDigit⟩ := whole?_head hWhole
    exact ⟨c, rest, rfl, .inr hDigit⟩

/-- A number with its sign ends where it cannot go on, whatever comes behind that. It is the one token
that depends on what follows. -/
theorem number?_append {n : Numeral} (h : number? l = some (n, r)) (hs : Stops s) :
    number? (l ++ s) = some (n, r ++ s) := by
  obtain ⟨c, rest, rfl, -⟩ := number?_head h
  by_cases hSign : c = '-'
  · subst hSign
    exact magnitude?_append h hs
  · have hPlain (t : List Char) : number? (c :: t) = magnitude? false (c :: t) := by
      rw [number?]
      exact fun _ hSame => hSign (List.cons.inj hSame).1
    rw [hPlain] at h
    rw [List.cons_append, hPlain]
    exact magnitude?_append h hs

theorem number?_cut {n : Numeral} (h : number? l = some (n, r ++ s)) :
    ∃ l', l = l' ++ s ∧ number? l' = some (n, r) := by
  unfold number? at h
  split at h
  · obtain ⟨l', rfl, hCut⟩ := magnitude?_cut h
    exact ⟨'-' :: l', rfl, hCut⟩
  next hSign =>
    obtain ⟨l', rfl, hCut⟩ := magnitude?_cut h
    refine ⟨l', rfl, ?_⟩
    rw [number?, hCut]
    rintro rest rfl
    exact hSign (rest ++ s) rfl

theorem isBlank_iff {c : Char} :
    isBlank c = true ↔ c = ' ' ∨ c = '\t' ∨ c = '\n' ∨ c = '\r' := by
  simp [isBlank, or_assoc]

/-- Numbers are the tokens that do not end by themselves. What stands behind one must not be a sign of a
number. -/
def Token.isNumber : Token → Bool
  | .number _ => true
  | _ => false

theorem Token.next?_number {c : Char} (hc : c = '-' ∨ c.isDigit = true) :
    Token.next? (c :: s) = (number? (c :: s)).map fun (n, rest) => (.number n, rest) := by
  have hOther {d : Char} (hSign : d ≠ '-') (hDigit : d.isDigit = false) : c ≠ d := by
    rintro rfl
    rcases hc with rfl | hTrue
    · exact hSign rfl
    · rw [hDigit] at hTrue
      cases hTrue
  rw [Token.next?]
  all_goals
    intro rest hSame
    exact hOther (by decide) (by decide) (List.cons.inj hSame).1

/-- Every token but a number ends by itself. A number needs something behind it that does not go on with
it. -/
theorem Token.next?_append {token : Token} (h : Token.next? l = some (token, r))
    (hs : token.isNumber = true → Stops s) : Token.next? (l ++ s) = some (token, r ++ s) := by
  unfold Token.next? at h
  split at h
  case h_7 rest =>
    obtain ⟨⟨pieces, tail⟩, hPieces, hPair⟩ := Option.map_eq_some_iff.mp h
    cases hPair
    rw [List.cons_append, Token.next?, pieces?_append hPieces]
    rfl
  case h_11 =>
    obtain ⟨⟨n, tail⟩, hNumber, hPair⟩ := Option.map_eq_some_iff.mp h
    cases hPair
    obtain ⟨c, rest, rfl, hc⟩ := number?_head hNumber
    have hMore := number?_append hNumber (hs rfl)
    rw [List.cons_append] at hMore ⊢
    rw [Token.next?_number hc, hMore]
    rfl
  all_goals
    cases h
    rfl

/-- A token begins with no blank, and a token that is no number with nothing that a number could go on
with. -/
theorem Token.next?_head {token : Token} (h : Token.next? l = some (token, r)) :
    ∃ c rest, l = c :: rest ∧ isBlank c = false ∧ (token.isNumber = false → Stops l) := by
  unfold Token.next? at h
  split at h
  case h_7 rest => exact ⟨_, _, rfl, by decide, fun _ => stops_cons (by decide)⟩
  case h_11 =>
    obtain ⟨⟨n, tail⟩, hNumber, hPair⟩ := Option.map_eq_some_iff.mp h
    cases hPair
    obtain ⟨c, rest, rfl, hc⟩ := number?_head hNumber
    refine ⟨c, rest, rfl, ?_, nofun⟩
    by_contra hBlank
    rcases isBlank_iff.mp (Bool.not_eq_false _ ▸ hBlank) with rfl | rfl | rfl | rfl <;>
      exact absurd hc (by decide)
  all_goals exact ⟨_, _, rfl, by decide, fun _ => stops_cons (by decide)⟩

theorem Token.next?_cut {token : Token} (h : Token.next? l = some (token, r ++ s)) :
    ∃ l', l = l' ++ s ∧ Token.next? l' = some (token, r) := by
  unfold Token.next? at h
  split at h
  case h_7 =>
    obtain ⟨⟨pieces, tail⟩, hPieces, hPair⟩ := Option.map_eq_some_iff.mp h
    obtain ⟨rfl, rfl⟩ := Prod.mk.inj hPair
    obtain ⟨l', rfl, hCut⟩ := pieces?_cut hPieces
    refine ⟨'"' :: l', rfl, ?_⟩
    rw [Token.next?, hCut]
    rfl
  case h_11 =>
    obtain ⟨⟨n, tail⟩, hNumber, hPair⟩ := Option.map_eq_some_iff.mp h
    obtain ⟨rfl, rfl⟩ := Prod.mk.inj hPair
    obtain ⟨l', rfl, hCut⟩ := number?_cut hNumber
    obtain ⟨c, rest, rfl, hc⟩ := number?_head hCut
    refine ⟨c :: rest, rfl, ?_⟩
    rw [Token.next?_number hc, hCut]
    rfl
  case h_8 =>
    obtain ⟨rfl, rfl⟩ := Prod.mk.inj (Option.some.inj h)
    exact ⟨'n' :: 'u' :: 'l' :: 'l' :: r, rfl, rfl⟩
  case h_9 =>
    obtain ⟨rfl, rfl⟩ := Prod.mk.inj (Option.some.inj h)
    exact ⟨'t' :: 'r' :: 'u' :: 'e' :: r, rfl, rfl⟩
  case h_10 =>
    obtain ⟨rfl, rfl⟩ := Prod.mk.inj (Option.some.inj h)
    exact ⟨'f' :: 'a' :: 'l' :: 's' :: 'e' :: r, rfl, rfl⟩
  all_goals
    obtain ⟨rfl, rfl⟩ := Prod.mk.inj (Option.some.inj h)
    exact ⟨_ :: r, rfl, rfl⟩

/-- A literal that spells the token and nothing more. A token may have many literals, for numbers and
strings are written in many ways. -/
def Token.Spells (token : Token) (literal : List Char) : Prop := Token.next? literal = some (token, [])

/-- What the reader takes for a token spells the token. -/
theorem Token.exists_literal {token : Token} (h : Token.next? l = some (token, r)) :
    ∃ literal, l = literal ++ r ∧ token.Spells literal :=
  Token.next?_cut (r := []) h

/-- The literals one after the other, with blanks before, between and behind them as it may be. There
need be none. -/
inductive Spaced : List (List Char) → List Char → Prop
  | nil {blanks : List Char} (h : ∀ c ∈ blanks, isBlank c = true) : Spaced [] blanks
  | cons {blanks literal s : List Char} {literals : List (List Char)}
      (h : ∀ c ∈ blanks, isBlank c = true) (hRest : Spaced literals s) :
      Spaced (literal :: literals) (blanks ++ (literal ++ s))

/-- Tokens that blanks need not keep apart: no two numbers stand side by side. -/
def Separated (tokens : List Token) : Prop :=
  tokens.IsChain fun a b => a.isNumber = true → b.isNumber = false

variable {literals : List (List Char)} {tokens : List Token}

theorem stops_of_isBlank {c : Char} (h : isBlank c = true) : Stops (c :: s) := by
  rcases isBlank_iff.mp h with rfl | rfl | rfl | rfl <;> exact stops_cons (by decide)

/-- No number goes on with a text whose first token is no number. -/
theorem Spaced.stops (hSpaced : Spaced literals s)
    (hSpells : List.Forall₂ Token.Spells tokens literals)
    (hFirst : ∀ token ∈ tokens.head?, token.isNumber = false) : Stops s := by
  cases hSpaced with
  | nil hBlanks =>
      cases s with
      | nil => exact stops_nil
      | cons c s => exact stops_of_isBlank (hBlanks c List.mem_cons_self)
  | @cons blanks literal rest literals hBlanks hRest =>
      cases hSpells with
      | cons hToken hTokens =>
          cases blanks with
          | nil =>
              obtain ⟨c, tail, rfl, -, hStops⟩ := Token.next?_head hToken
              exact stops_cons (hStops (hFirst _ rfl) c rfl)
          | cons c blanks => exact stops_of_isBlank (hBlanks c List.mem_cons_self)

/-- The tokens of a text are those that its literals spell, whatever the blanks, by induction on the
literals. -/
theorem tokens?_of_spaced (hSpells : List.Forall₂ Token.Spells tokens literals)
    (hSeparated : Separated tokens) (hSpaced : Spaced literals s) (met : List Token) :
    tokens? met s = some (met.reverse ++ tokens) := by
  induction hSpaced generalizing met tokens with
  | @nil blanks hBlanks =>
      cases hSpells
      have hDrop : blanks.dropWhile isBlank = [] := List.dropWhile_eq_nil_iff.mpr hBlanks
      rw [tokens?, if_pos hDrop, List.append_nil]
  | @cons blanks literal rest literals hBlanks hRest ih =>
      cases hSpells with
      | @cons token _ tokens _ hToken hTokens =>
          obtain ⟨c, tail, hHead, hBlank, -⟩ := Token.next?_head hToken
          have hDrop : (blanks ++ (literal ++ rest)).dropWhile isBlank = literal ++ rest := by
            rw [List.dropWhile_append_of_pos hBlanks, hHead, List.cons_append,
              List.dropWhile_cons_of_neg (by simp [hBlank])]
          obtain ⟨hFollows, hTail⟩ := List.isChain_cons.mp hSeparated
          have hNext : Token.next? (literal ++ rest) = some (token, rest) :=
            Token.next?_append hToken fun hNumber =>
              hRest.stops hTokens fun next hMem => hFollows next hMem hNumber
          have hNil : literal ++ rest ≠ [] := by
            rw [hHead]
            exact List.cons_ne_nil _ _
          rw [tokens?, hDrop, if_neg hNil]
          split
          next token' rest' hRead =>
            obtain ⟨rfl, rfl⟩ : token = token' ∧ rest = rest' := by
              simpa [hNext] using hRead
            rw [ih hTokens hTail, List.reverse_cons, List.append_assoc]
            rfl
          next hRead =>
            rw [hNext] at hRead
            cases hRead

/-- The tokens of a text are spelled in it one after the other. -/
theorem exists_literals {met : List Token} (h : tokens? met s = some tokens) :
    ∃ rest literals, tokens = met.reverse ++ rest ∧ List.Forall₂ Token.Spells rest literals ∧
      Spaced literals s := by
  fun_induction tokens? met s with
  | case1 met s hBlank =>
      cases h
      exact ⟨[], [], (List.append_nil _).symm, .nil, .nil (List.dropWhile_eq_nil_iff.mp hBlank)⟩
  | case2 met s _ token rest hNext ih =>
      obtain ⟨tokens', literals, rfl, hSpells, hSpaced⟩ := ih h
      obtain ⟨literal, hText, hSpelled⟩ := Token.exists_literal hNext
      refine ⟨token :: tokens', literal :: literals, by simp, .cons hSpelled hSpells, ?_⟩
      rw [← List.takeWhile_append_dropWhile (p := isBlank) (l := s), hText]
      exact .cons (List.all_eq_true.mp List.all_takeWhile) hSpaced
  | case3 => cases h

end MiniJava.Json
