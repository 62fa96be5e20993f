import MiniJava.Json.Reader
import MiniJava.Proofs.Json.Lexing

/-! The texts of a JSON value: literals for the tokens of the value, with blanks wherever there is no
literal. The reader finds the value in each of its texts, and in no others. -/

namespace MiniJava.Json

/-- Induction on values with the hypothesis for each item and for each value of a member, which the
recursor gives for the lists only. -/
@[elab_as_elim, induction_eliminator]
theorem induction {motive : Json → Prop} (null : motive .null) (bool : ∀ value, motive (.bool value))
    (number : ∀ value, motive (.number value)) (string : ∀ value, motive (.string value))
    (array : ∀ items, (∀ j ∈ items, motive j) → motive (.array items))
    (object : ∀ members, (∀ m ∈ members, motive m.2) → motive (.object members)) (j : Json) :
    motive j :=
  @Json.rec motive (fun items => ∀ j ∈ items, motive j) (fun members => ∀ m ∈ members, motive m.2)
    (fun m => motive m.2) null bool number string array object (by simp)
    (fun _ _ hHead hTail => List.forall_mem_cons.mpr ⟨hHead, hTail⟩) (by simp)
    (fun _ _ hHead hTail => List.forall_mem_cons.mpr ⟨hHead, hTail⟩) (fun _ _ h => h) j

mutual

/-- The tokens of a value in their order. Commas stand between items and between members, and none behind
the last. -/
def tokens : Json → List Token
  | .null => [.null]
  | .bool b => [.bool b]
  | .number n => [.number n]
  | .string s => [.string s]
  | .array [] => [.openArray, .closeArray]
  | .array (j :: rest) => .openArray :: (j.tokens ++ itemTokens rest ++ [.closeArray])
  | .object [] => [.openObject, .closeObject]
  | .object ((name, j) :: rest) =>
      .openObject :: .string name :: .colon :: (j.tokens ++ memberTokens rest ++ [.closeObject])
termination_by structural j => j

/-- The tokens of the items after the first, each item behind its comma. -/
def itemTokens : List Json → List Token
  | [] => []
  | j :: rest => .comma :: (j.tokens ++ itemTokens rest)
termination_by structural items => items

/-- The tokens of the members after the first, each member behind its comma. -/
def memberTokens : List (Str × Json) → List Token
  | [] => []
  | (name, j) :: rest => .comma :: .string name :: .colon :: (j.tokens ++ memberTokens rest)
termination_by structural members => members

end

namespace Position

/-- The position after the tokens, if each of them may stand where it stands. Reading is this run, with a
check at its end. -/
def run? (position : Position) (tokens : List Token) : Option Position :=
  tokens.foldlM step? position

theorem run?_append (position : Position) (tokens rest : List Token) :
    position.run? (tokens ++ rest) = (position.run? tokens).bind (·.run? rest) := by
  rw [run?, List.foldlM_append]
  rfl

theorem run?_cons {position next : Position} {token : Token} (h : position.step? token = some next)
    (rest : List Token) : position.run? (token :: rest) = next.run? rest := by
  rw [run?, List.foldlM_cons, h]
  rfl

/-- A value may be the first item of an array, where the closing bracket may stand too. It is read as in
any other place. -/
theorem run?_firstItem (j : Json) (stack : List Frame) :
    (firstItem stack).run? j.tokens = (value (.array [] :: stack)).run? j.tokens := by
  cases j with
  | array items => cases items <;> rfl
  | object members => cases members <;> rfl
  | _ => rfl

/-- The items behind the first, up to the closing bracket. -/
theorem run?_items {rest : List Json}
    (h : ∀ j ∈ rest, ∀ stack, (value stack).run? j.tokens = some (done j stack)) (j : Json)
    (met : List Json) (stack : List Frame) :
    (done j (.array met :: stack)).run? (itemTokens rest ++ [.closeArray]) =
      some (done (.array (met.reverse ++ j :: rest)) stack) := by
  induction rest generalizing j met with
  | nil =>
      have hStep : (done j (.array met :: stack)).step? .closeArray =
          some (done (.array (j :: met).reverse) stack) := rfl
      rw [itemTokens, List.nil_append, run?_cons hStep, List.reverse_cons]
      rfl
  | cons next rest ih =>
      obtain ⟨hNext, hRest⟩ := List.forall_mem_cons.mp h
      have hStep : (done j (.array met :: stack)).step? .comma =
          some (value (.array (j :: met) :: stack)) := rfl
      rw [itemTokens, List.cons_append, run?_cons hStep, List.append_assoc, run?_append, hNext,
        Option.bind_some, ih hRest]
      simp

/-- The members behind the first, up to the closing brace. -/
theorem run?_members {rest : List (Str × Json)}
    (h : ∀ m ∈ rest, ∀ stack, (value stack).run? m.2.tokens = some (done m.2 stack)) (name : Str)
    (j : Json) (met : List (Str × Json)) (stack : List Frame) :
    (done j (.object met name :: stack)).run? (memberTokens rest ++ [.closeObject]) =
      some (done (.object (met.reverse ++ (name, j) :: rest)) stack) := by
  induction rest generalizing name j met with
  | nil =>
      have hStep : (done j (.object met name :: stack)).step? .closeObject =
          some (done (.object ((name, j) :: met).reverse) stack) := rfl
      rw [memberTokens, List.nil_append, run?_cons hStep, List.reverse_cons]
      rfl
  | cons next rest ih =>
      obtain ⟨hNext, hRest⟩ := List.forall_mem_cons.mp h
      obtain ⟨nextName, value'⟩ := next
      have hStep : (done j (.object met name :: stack)).step? .comma =
          some (.name ((name, j) :: met) stack) := rfl
      have hName : (Position.name ((name, j) :: met) stack).step? (.string nextName) =
          some (colon ((name, j) :: met) nextName stack) := rfl
      have hColon : (colon ((name, j) :: met) nextName stack).step? .colon =
          some (value (.object ((name, j) :: met) nextName :: stack)) := rfl
      rw [memberTokens, List.cons_append, run?_cons hStep, List.cons_append, run?_cons hName,
        List.cons_append, run?_cons hColon, List.append_assoc, run?_append, hNext,
        Option.bind_some, ih hRest]
      simp

/-- The tokens of a value take the reader from where a value must follow to where the value is read. -/
theorem run?_tokens (j : Json) (stack : List Frame) :
    (value stack).run? j.tokens = some (done j stack) := by
  induction j generalizing stack with
  | array items ih =>
      cases items with
      | nil => rfl
      | cons j rest =>
          obtain ⟨hFirst, hRest⟩ := List.forall_mem_cons.mp ih
          have hStep : (value stack).step? .openArray = some (firstItem stack) := rfl
          rw [tokens, run?_cons hStep, List.append_assoc, run?_append, run?_firstItem, hFirst,
            Option.bind_some, run?_items hRest]
          rfl
  | object members ih =>
      cases members with
      | nil => rfl
      | cons first rest =>
          obtain ⟨hFirst, hRest⟩ := List.forall_mem_cons.mp ih
          obtain ⟨name, j⟩ := first
          have hStep : (value stack).step? .openObject = some (firstName stack) := rfl
          have hName : (firstName stack).step? (.string name) = some (colon [] name stack) := rfl
          have hColon : (colon [] name stack).step? .colon =
              some (value (.object [] name :: stack)) := rfl
          rw [tokens, run?_cons hStep, run?_cons hName, run?_cons hColon, List.append_assoc,
            run?_append, hFirst, Option.bind_some, run?_members hRest]
          rfl
  | _ => rfl

/-- A number is taken only where a value may stand, and is a whole value by itself. -/
theorem step?_number {position next : Position} {n : Numeral}
    (h : position.step? (.number n) = some next) : ∃ stack, next = done (.number n) stack := by
  cases position with
  | value stack =>
      cases h
      exact ⟨_, rfl⟩
  | firstItem stack =>
      cases h
      exact ⟨_, rfl⟩
  | firstName => cases h
  | name => cases h
  | colon => cases h
  | done j stack =>
      rcases stack with _ | ⟨_ | _, _⟩ <;> cases h

/-- No number is taken where a value has just ended. -/
theorem step?_done_number (j : Json) (stack : List Frame) (n : Numeral) :
    (done j stack).step? (.number n) = none := by
  rcases stack with _ | ⟨_ | _, _⟩ <;> rfl

/-- Tokens that the reader takes never have two numbers side by side, so that no blank is needed to keep
them apart. -/
theorem separated_of_run? {position last : Position} {tokens : List Token}
    (h : position.run? tokens = some last) : Separated tokens := by
  induction tokens generalizing position with
  | nil => exact List.IsChain.nil
  | cons token rest ih =>
      rw [run?, List.foldlM_cons] at h
      obtain ⟨next, hStep, hRest⟩ := Option.bind_eq_some_iff.mp h
      refine List.isChain_cons.mpr ⟨?_, ih hRest⟩
      rintro follower hFollower hNumber
      cases token with
      | number n =>
          obtain ⟨stack, rfl⟩ := step?_number hStep
          cases rest with
          | nil => cases hFollower
          | cons second rest =>
              obtain rfl := Option.some.inj hFollower
              cases second with
              | number m =>
                  rw [List.foldlM_cons, step?_done_number] at hRest
                  cases hRest
              | _ => rfl
      | _ => cases hNumber

end Position

/-- The reader finds a value in its tokens, by induction on the value, at whatever position a value may
stand. -/
theorem ofTokens?_tokens (j : Json) : ofTokens? j.tokens = some j := by
  have hRun := Position.run?_tokens j []
  rw [Position.run?] at hRun
  rw [ofTokens?, hRun]
  rfl

theorem separated_of_ofTokens? {tokens : List Token} {j : Json} (h : ofTokens? tokens = some j) :
    Separated tokens := by
  obtain ⟨last, hRun, -⟩ := Option.bind_eq_some_iff.mp h
  exact Position.separated_of_run? hRun

/-- The items before a comma, with the commas, as they are kept in an array that is still open. -/
def itemsTaken (items : List Json) : List Token := items.flatMap fun j => j.tokens ++ [.comma]

/-- The members before a comma, with the commas, as they are kept in an object that is still open. -/
def membersTaken (members : List (Str × Json)) : List Token :=
  members.flatMap fun m => .string m.1 :: .colon :: (m.2.tokens ++ [.comma])

theorem tokens_array (items : List Json) (j : Json) :
    (array (items ++ [j])).tokens = .openArray :: (itemsTaken items ++ (j.tokens ++ [.closeArray])) := by
  have hItems (j : Json) (items : List Json) (last : Json) :
      j.tokens ++ itemTokens (items ++ [last]) = itemsTaken (j :: items) ++ last.tokens := by
    induction items generalizing j with
    | nil => simp [itemsTaken, itemTokens]
    | cons next rest ih =>
        rw [List.cons_append, itemTokens, ih]
        simp [itemsTaken]
  cases items with
  | nil => simp [tokens, itemsTaken, itemTokens]
  | cons first rest => rw [List.cons_append, tokens, hItems, List.append_assoc]

theorem tokens_object (members : List (Str × Json)) (name : Str) (j : Json) :
    (object (members ++ [(name, j)])).tokens =
      .openObject :: (membersTaken members ++ (.string name :: .colon :: (j.tokens ++ [.closeObject]))) := by
  have hMembers (key : Str) (value : Json) (members : List (Str × Json)) :
      .string key :: .colon :: (value.tokens ++ memberTokens (members ++ [(name, j)])) =
        membersTaken ((key, value) :: members) ++ (.string name :: .colon :: j.tokens) := by
    induction members generalizing key value with
    | nil => simp [membersTaken, memberTokens]
    | cons next rest ih =>
        rw [List.cons_append, memberTokens, ih]
        simp [membersTaken]
  cases members with
  | nil => simp [tokens, membersTaken, memberTokens]
  | cons first rest =>
      have hTokens := congrArg (· ++ [Token.closeObject]) (hMembers first.1 first.2 rest)
      simp only [List.cons_append, List.append_assoc] at hTokens ⊢
      rw [tokens, ← hTokens, List.append_assoc]

/-- The tokens from the opening bracket to where the next part begins. They can be told from what the
frame has kept. -/
def Frame.taken : Frame → List Token
  | .array items => .openArray :: itemsTaken items.reverse
  | .object members name => .openObject :: (membersTaken members.reverse ++ [.string name, .colon])

/-- The tokens of everything that is open, from the outermost bracket on. The stack has the innermost
bracket first. -/
def stackTaken (stack : List Frame) : List Token := stack.reverse.flatMap Frame.taken

theorem stackTaken_cons (frame : Frame) (stack : List Frame) :
    stackTaken (frame :: stack) = stackTaken stack ++ frame.taken := by
  simp [stackTaken]

namespace Position

/-- The tokens that lead to the position. No others do, so a position remembers all that was read. -/
def taken : Position → List Token
  | .value stack => stackTaken stack
  | .firstItem stack => stackTaken stack ++ [.openArray]
  | .firstName stack => stackTaken stack ++ [.openObject]
  | .name members stack => stackTaken stack ++ .openObject :: membersTaken members.reverse
  | .colon members key stack =>
      stackTaken stack ++ .openObject :: (membersTaken members.reverse ++ [.string key])
  | .done j stack => stackTaken stack ++ j.tokens

/-- The first token of a value is added to those that lead to where it stands. -/
theorem taken_begin? {stack : List Frame} {token : Token} {next : Position}
    (h : begin? stack token = some next) : next.taken = stackTaken stack ++ [token] := by
  cases token <;> cases h <;> rfl

/-- A step takes its token and nothing else, so no token is ever lost or read twice. -/
theorem taken_step? {position next : Position} {token : Token} (h : position.step? token = some next) :
    next.taken = position.taken ++ [token] := by
  unfold step? at h
  split at h
  -- A value begins (1, 3), an array or an object ends (9, 11); elsewhere the token joins what is open.
  case h_1 => exact taken_begin? h
  case h_3 =>
    rw [taken_begin? h, stackTaken_cons]
    rfl
  case h_9 =>
    cases h
    rw [List.reverse_cons, taken, taken, stackTaken_cons, tokens_array]
    simp [Frame.taken]
  case h_11 =>
    cases h
    rw [List.reverse_cons, taken, taken, stackTaken_cons, tokens_object]
    simp [Frame.taken]
  case h_12 => cases h
  all_goals
    cases h
    simp [taken, tokens, stackTaken_cons, Frame.taken, itemsTaken, membersTaken]

theorem taken_run? {position last : Position} {tokens : List Token}
    (h : position.run? tokens = some last) : last.taken = position.taken ++ tokens := by
  induction tokens generalizing position with
  | nil =>
      cases h
      exact (List.append_nil _).symm
  | cons token rest ih =>
      rw [run?, List.foldlM_cons] at h
      obtain ⟨next, hStep, hRest⟩ := Option.bind_eq_some_iff.mp h
      rw [ih hRest, taken_step? hStep, List.append_assoc, List.singleton_append]

end Position

/-- The reader finds a value in no other tokens than those of the value. -/
theorem tokens_of_ofTokens? {tokens : List Token} {j : Json} (h : ofTokens? tokens = some j) :
    tokens = j.tokens := by
  obtain ⟨last, hRun, hLast⟩ := Option.bind_eq_some_iff.mp h
  have hTaken := Position.taken_run? hRun
  unfold Position.value? at hLast
  split at hLast
  · cases hLast
    exact hTaken.symm
  · cases hLast

/-- A text of the value: literals for its tokens, with blanks as it may be. The literals may be any that
spell these tokens. -/
def IsText (j : Json) (s : String) : Prop :=
  ∃ literals, List.Forall₂ Token.Spells j.tokens literals ∧ Spaced literals s.toList

/-- The reader finds a value in each of its texts, whichever way the literals are written and wherever
blanks stand. -/
theorem parse?_of_isText {j : Json} {s : String} (h : j.IsText s) : parse? s = some j := by
  obtain ⟨literals, hSpells, hSpaced⟩ := h
  have hTokens := tokens?_of_spaced hSpells (separated_of_ofTokens? (ofTokens?_tokens j)) hSpaced []
  rw [parse?, ofChars?, hTokens]
  exact ofTokens?_tokens j

/-- The reader finds a value in its texts and in no others. This is the specification of the reader: what
it accepts is given by tokens, literals and blanks, without any of its positions. -/
theorem isText_iff {j : Json} {s : String} : j.IsText s ↔ parse? s = some j := by
  refine ⟨parse?_of_isText, fun h => ?_⟩
  rw [parse?, ofChars?] at h
  obtain ⟨tokens, hTokens, hValue⟩ := Option.bind_eq_some_iff.mp h
  obtain ⟨_, literals, rfl, hSpells, hSpaced⟩ := exists_literals hTokens
  rw [tokens_of_ofTokens? hValue] at hSpells
  exact ⟨literals, hSpells, hSpaced⟩

theorem IsText.unique {j j' : Json} {s : String} (h : j.IsText s) (h' : j'.IsText s) : j = j' :=
  Option.some.inj ((isText_iff.mp h).symm.trans (isText_iff.mp h'))

/-- Texts with the same literals, and other blanks between them. Whatever the one spells, the other
spells too. -/
def Respaced (s s' : String) : Prop :=
  ∃ tokens literals, tokens? [] s.toList = some tokens ∧ List.Forall₂ Token.Spells tokens literals ∧
    Spaced literals s.toList ∧ Spaced literals s'.toList

/-- The blanks in a text do not change its value. They stand between tokens only, since blanks in a
literal are part of it. -/
theorem isText_of_respaced {s s' : String} {j : Json} (hRespaced : Respaced s s') (h : j.IsText s) :
    j.IsText s' := by
  obtain ⟨tokens, literals, hTokens, hSpells, -, hSpaced⟩ := hRespaced
  rw [isText_iff, parse?, ofChars?, hTokens] at h
  rw [isText_iff, parse?, ofChars?, tokens?_of_spaced hSpells (separated_of_ofTokens? h) hSpaced]
  exact h

end MiniJava.Json
