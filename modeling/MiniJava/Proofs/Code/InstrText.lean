import MiniJava.Proofs.Code.OperandText
import MiniJava.Proofs.Labels.Emitted

/-! The text of an instruction determines it. The word with which it begins and the sign behind the word
tell its form; the parts follow one after the other. -/

namespace MiniJava.Code

variable {a b : Instr} {r s : List Char}

theorem BinaryOp.text_injective : Function.Injective BinaryOp.text := by
  intro op op' h
  cases op <;> cases op' <;> simp_all [text]

/-- Operators hold no point, so that the type behind one can be told from it. -/
theorem BinaryOp.text_no_point (op : BinaryOp) : ∀ c ∈ op.text.toList, c ≠ '.' := by
  cases op <;> simp [text]

/-- An operator and its type, as an instruction shows them, are determined by the text, and so is what
stands behind. -/
theorem operator_unambiguous {op op' : BinaryOp} {ty ty' : Ty} (hTy : ty.isReadable = true)
    (hTy' : ty'.isReadable = true) (hr : Ends r) (hs : Ends s)
    (h : op.text.toList ++ (ty.text.toList ++ r) = op'.text.toList ++ (ty'.text.toList ++ s)) :
    op = op' ∧ ty = ty' ∧ r = s := by
  have hPoint (ty : Ty) (t : List Char) : ∀ c ∈ (ty.text.toList ++ t).head?, ¬c ≠ '.' := by
    rw [Ty.text_toList]
    rintro _ ⟨⟩ hNe
    exact hNe rfl
  obtain ⟨hOp, hRest⟩ := span_unique op.text_no_point op'.text_no_point (hPoint ty r) (hPoint ty' s) h
  obtain ⟨rfl, rfl⟩ := Ty.text_unambiguous hTy hTy' hr hs hRest
  exact ⟨BinaryOp.text_injective (String.toList_inj.mp hOp), rfl, rfl⟩

/-- A name with a type is the text of a variable, so what holds of operands holds of it. -/
theorem named_unambiguous {name name' : String} {ty ty' : Ty} (hName : isName name = true)
    (hName' : isName name' = true) (hTy : ty.isReadable = true) (hTy' : ty'.isReadable = true)
    (hr : Ends r) (hs : Ends s)
    (h : name.toList ++ (ty.text.toList ++ r) = name'.toList ++ (ty'.text.toList ++ s)) :
    name = name' ∧ ty = ty' ∧ r = s := by
  have hText : (Operand.variable name ty).text.toList ++ r =
      (Operand.variable name' ty').text.toList ++ s := by
    simpa [Operand.text] using h
  obtain ⟨hSame, rfl⟩ := Operand.text_unambiguous (.simple (.variable hName hTy))
    (.simple (.variable hName' hTy')) hr hs hText
  obtain ⟨rfl, rfl⟩ := Operand.variable.inj hSame
  exact ⟨rfl, rfl, rfl⟩

/-- The arguments of a call, each behind a comma and a blank. The receiver or the method stands before
the first. -/
def argumentsText (os : List Operand) : List Char := os.flatMap fun o => ',' :: ' ' :: o.text.toList

/-- What stands behind an operand in a list of arguments is a comma or the closing bracket. -/
theorem ends_arguments (os : List Operand) (r : List Char) : Ends (argumentsText os ++ ')' :: r) := by
  cases os with
  | nil => exact ends_cons (by decide)
  | cons => exact ends_cons (by decide)

/-- Lists of arguments up to a closing bracket are the same if their texts are, since each operand tells
where its text ends. -/
theorem arguments_unambiguous {os os' : List Operand} (hos : ∀ o ∈ os, o.Simple .readable)
    (hos' : ∀ o ∈ os', o.Simple .readable)
    (h : argumentsText os ++ ')' :: r = argumentsText os' ++ ')' :: s) : os = os' ∧ r = s := by
  induction os generalizing os' with
  | nil =>
      cases os' with
      | nil => exact ⟨rfl, (List.cons.inj h).2⟩
      | cons => cases (List.cons.inj h).1
  | cons o rest ih =>
      cases os' with
      | nil => cases (List.cons.inj h).1
      | cons o' rest' =>
          obtain ⟨ho, hRest⟩ := List.forall_mem_cons.mp hos
          obtain ⟨ho', hRest'⟩ := List.forall_mem_cons.mp hos'
          have hTail : o.text.toList ++ (argumentsText rest ++ ')' :: r) =
              o'.text.toList ++ (argumentsText rest' ++ ')' :: s) := by
            simpa [argumentsText] using h
          obtain ⟨rfl, hMore⟩ := Operand.text_unambiguous (.simple ho) (.simple ho')
            (ends_arguments rest r) (ends_arguments rest' s) hTail
          obtain ⟨rfl, rfl⟩ := ih hRest hRest' hMore
          exact ⟨rfl, rfl⟩

/-- The operand with whose text an instruction begins; a word counts as the name of a class. A negation
begins with none. -/
def Instr.opening : Instr → Option Operand
  | .assign dest _ _ => some dest
  | .operand o => some o
  | .binary _ left _ _ => some left
  | .not _ _ => none
  | .ret _ ty => some (.variable "ret" ty)
  | .getField _ _ _ => some (.classRef "getfield")
  | .putField _ _ _ _ => some (.classRef "putfield")
  | .call kind _ _ _ _ => some (.classRef kind.text)
  | .branch _ _ => some (.classRef "if")
  | .goto _ => some (.classRef "goto")
  | .label l => some (.classRef l.text)

/-- What stands in the brackets of a call before its first argument. An allocation of an array shows a
word in place of its receiver. -/
def callOpening (receiver : Operand) (method : Option String) (ty : Ty) : CallKind → List Char
  | .new => if ty.isArray then ['a', 'r', 'r', 'a', 'y'] else receiver.text.toList
  | .arrayLength => receiver.text.toList
  | .invokeSpecial | .invokeVirtual | .invokeStatic =>
      receiver.text.toList ++ ',' :: ' ' :: '"' :: ((method.getD "").toList ++ ['"'])

/-- The text of an instruction behind its opening; the two together are the whole text. -/
def Instr.rest : Instr → List Char
  | .assign _ ty rhs => ' ' :: ':' :: '=' :: (ty.text.toList ++ ' ' :: rhs.text.toList)
  | .operand _ | .ret none _ => []
  | .binary op _ right ty => ' ' :: (op.text.toList ++ (ty.text.toList ++ ' ' :: right.text.toList))
  | .not o ty => '!' :: (ty.text.toList ++ ' ' :: o.text.toList)
  | .ret (some value) _ => ' ' :: value.text.toList
  | .getField object field ty =>
      '(' :: (object.text.toList ++ ',' :: ' ' :: (field.toList ++ (ty.text.toList ++
        ')' :: ty.text.toList)))
  | .putField object field ty value =>
      '(' :: (object.text.toList ++ ',' :: ' ' :: (field.toList ++ (ty.text.toList ++
        ',' :: ' ' :: (value.text.toList ++ [')', '.', 'V']))))
  | .call kind receiver method arguments ty =>
      '(' :: (callOpening receiver method ty kind ++ (argumentsText arguments ++ ')' :: ty.text.toList))
  | .branch condition target =>
      ' ' :: '(' :: (condition.text.toList ++
        ')' :: ' ' :: 'g' :: 'o' :: 't' :: 'o' :: ' ' :: target.text.toList)
  | .goto target => ' ' :: target.text.toList
  | .label _ => [':']

/-- The arguments as the text of a call joins them are the ones read here, each behind its comma. -/
theorem argumentsText_eq (os : List Operand) :
    (String.join (os.map fun o => ", " ++ o.text)).toList = argumentsText os := by
  rw [String.toList_join, List.flatMap_map]
  simp [argumentsText]

/-- A call begins with its word and a bracket. What is in the bracket first depends on the kind of the
call. -/
theorem callHead_toList (kind : CallKind) (receiver : Operand) (method : Option String) (ty : Ty) :
    (Instr.callHead kind receiver method ty).toList =
      kind.text.toList ++ '(' :: callOpening receiver method ty kind := by
  cases kind with
  | new => cases hArray : ty.isArray <;> simp [Instr.callHead, callOpening, hArray, CallKind.text]
  | arrayLength => simp [Instr.callHead, callOpening, CallKind.text]
  | _ => simp [Instr.callHead, callOpening, CallKind.text]

/-- The text of every instruction is its opening operand, if it begins with one, and the rest. All
comparisons of texts begin by taking the two apart. -/
theorem Instr.text_toList (i : Instr) :
    i.text.toList = (i.opening.map (·.text.toList)).getD [] ++ i.rest := by
  cases i with
  | call kind receiver method arguments ty =>
      simp only [text, String.toList_append, callHead_toList, argumentsText_eq, opening, rest,
        List.append_assoc, List.cons_append]
      rfl
  | ret value ty => cases value <;> simp [text, opening, rest, Operand.text]
  | _ => simp [text, opening, rest, Operand.text]

/-- What stands behind an opening operand is a sign that could not go on with it. -/
theorem Instr.ends_rest {i : Instr} (h : i.opening ≠ none) : Ends i.rest := by
  cases i with
  | not => exact (h rfl).elim
  | operand => exact ends_nil
  | ret value ty =>
      cases value with
      | none => exact ends_nil
      | some => exact ends_cons (by decide)
  | _ => exact ends_cons (by decide)

/-- What an opening and the sign behind it tell of the form of an instruction. Forms that are told apart
later are one here. -/
inductive InstrForm where
  | negation
  | access
  | store
  | call (kind : CallKind)
  | other
deriving DecidableEq

/-- The form that is told by the word before a bracket, or by the exclamation mark of a negation; all
other instructions count as one form here. -/
def Instr.form : Instr → InstrForm
  | .not _ _ => .negation
  | .getField _ _ _ => .access
  | .putField _ _ _ _ => .store
  | .call kind _ _ _ _ => .call kind
  | .assign _ _ _ | .operand _ | .binary _ _ _ _ | .ret _ _ | .branch _ _ | .goto _ | .label _ => .other

/-- The words that stand before a bracket. No operand is followed by a bracket, so such a word is never
taken for a name. -/
def bracketWords : List (String × InstrForm) :=
  [("getfield", .access), ("putfield", .store), ("new", .call .new),
    ("invokespecial", .call .invokeSpecial), ("invokevirtual", .call .invokeVirtual),
    ("invokestatic", .call .invokeStatic), ("arraylength", .call .arrayLength)]

/-- The form of an instruction with the given opening and sign behind it. An instruction without an
operand in front is a negation. -/
def readInstrForm : Option Operand → Option Char → InstrForm
  | none, _ => .negation
  | some o, some '(' => (bracketWords.lookup o.text).getD .other
  | some _, _ => .other

/-- The form can be read off the text: from the opening and the one sign behind it. So instructions of
one text have one form. -/
theorem Instr.readForm_eq (i : Instr) : readInstrForm i.opening i.rest.head? = i.form := by
  cases i with
  | ret value ty => cases value <;> rfl
  | call kind receiver method arguments ty => cases kind <;> rfl
  | _ => rfl

/-- No operand begins with a sign. An instruction that does is therefore none that opens with an
operand. -/
theorem Operand.Flat.text_ne_mark {o : Operand} (h : o.Flat .readable) {c : Char} (hc : c ∈ marks) :
    o.text.toList ++ r ≠ c :: s := by
  obtain ⟨d, rest, hLead⟩ := List.exists_cons_of_ne_nil h.lead_ne_nil
  rw [text_toList, hLead]
  rintro hSame
  obtain rfl : d = c := (List.cons.inj hSame).1
  exact h.lead_plain d (hLead ▸ List.mem_cons_self) hc

/-- From equal texts the openings are told first and then the forms, so that what remains is to compare
the rests of two instructions of one form. -/
theorem Instr.text_split (ha : ∀ o ∈ a.opening, o.Flat .readable)
    (hb : ∀ o ∈ b.opening, o.Flat .readable) (h : a.text.toList = b.text.toList) :
    a.form = b.form ∧ a.opening = b.opening ∧ a.rest = b.rest := by
  have hSplit : a.opening = b.opening ∧ a.rest = b.rest := by
    have hNegation {i : Instr} (hNone : i.opening = none) : ∃ t, i.rest = '!' :: t := by
      cases i <;> first | exact ⟨_, rfl⟩ | cases hNone
    rw [text_toList, text_toList] at h
    cases hA : a.opening with
    | none =>
        cases hB : b.opening with
        | none => exact ⟨rfl, by simpa [hA, hB] using h⟩
        | some o' =>
            obtain ⟨t, hRest⟩ := hNegation hA
            rw [hA, hB, hRest] at h
            exact ((hb o' hB).text_ne_mark (by decide) h.symm).elim
    | some o =>
        cases hB : b.opening with
        | none =>
            obtain ⟨t, hRest⟩ := hNegation hB
            rw [hA, hB, hRest] at h
            exact ((ha o hA).text_ne_mark (by decide) h).elim
        | some o' =>
            rw [hA, hB] at h
            obtain ⟨rfl, hRest⟩ := Operand.text_unambiguous (ha o hA) (hb o' hB)
              (ends_rest (by simp [hA])) (ends_rest (by simp [hB])) h
            exact ⟨rfl, hRest⟩
  exact ⟨by rw [← readForm_eq, ← readForm_eq, hSplit.1, hSplit.2], hSplit⟩

theorem flat_word {word : String} (h : isName word = true) :
    ∀ o ∈ some (Operand.classRef word), o.Flat .readable := by
  rintro _ ⟨⟩
  exact .simple (.classRef h)

/-- The words of calls read as names, so that they are found like the name of a class. -/
theorem CallKind.isName_text (kind : CallKind) : isName kind.text = true := by
  cases kind <;> decide

theorem Operand.Simple.opening_flat {o : Operand} (h : o.Simple .readable) :
    ∀ o' ∈ some o, o'.Flat .readable := by
  rintro _ ⟨⟩
  exact .simple h

theorem Instr.Invocation.opening_flat {i : Instr} (h : i.Invocation .readable) :
    ∀ o ∈ i.opening, o.Flat .readable := by
  cases h
  exact flat_word (CallKind.isName_text _)

/-- Whatever opens a right-hand side, it is at most once indexed, and its text can be told from what
follows. -/
theorem Instr.Rhs.opening_flat {i : Instr} (h : i.Rhs .readable) :
    ∀ o ∈ i.opening, o.Flat .readable := by
  cases h with
  | operand h =>
      rintro _ ⟨⟩
      exact h
  | binary _ hLeft _ _ => exact hLeft.opening_flat
  | not => nofun
  | invocation h => exact h.opening_flat
  | _ => exact flat_word (by decide)

/-- In the bracket of an invocation the receiver comes first and then the name of the method, between
quotation marks. -/
theorem callOpening_invocation {kind : CallKind} (h : kind ≠ .new ∧ kind ≠ .arrayLength)
    (receiver : Operand) (method : String) (ty : Ty) :
    callOpening receiver (some method) ty kind =
      receiver.text.toList ++ ',' :: ' ' :: '"' :: (method.toList ++ ['"']) := by
  cases kind with
  | new => exact (h.1 rfl).elim
  | arrayLength => exact (h.2 rfl).elim
  | _ => rfl

/-- The name of a method that code calls is shown between quotation marks, and holds none itself. -/
theorem plain_of_isMethod {method : String} (h : isName method = true ∨ method = "<init>") :
    ∀ c ∈ method.toList, c ∉ marks := by
  rcases h with hName | rfl
  · exact plain_of_isName hName
  · exact plain_of_all (by decide)

/-- An invocation is determined by its text: the kind by its word, then the receiver, the name, the
arguments and the type one behind another. -/
theorem Instr.Invocation.text_injective (ha : a.Invocation .readable) (hb : b.Invocation .readable)
    (h : a.text.toList = b.text.toList) : a = b := by
  obtain ⟨hForm, -, hRest⟩ := text_split ha.opening_flat hb.opening_flat h
  cases ha with
  | @call kind target method arguments ty hKind hTarget hMethod hArguments hTy =>
  cases hb with
  | @call kind' target' method' arguments' ty' hKind' hTarget' hMethod' hArguments' hTy' =>
  obtain rfl := InstrForm.call.inj hForm
  simp only [rest, callOpening_invocation hKind, List.append_assoc, List.cons_append, List.nil_append,
    List.cons.injEq, true_and] at hRest
  have hComma {t : List Char} : Ends (',' :: t) := ends_cons (by decide)
  obtain ⟨rfl, hName⟩ := Operand.text_unambiguous (.simple hTarget) (.simple hTarget') hComma hComma hRest
  simp only [List.cons.injEq, true_and] at hName
  obtain ⟨hMethodSame, hMore⟩ := span_unique (plain_of_isMethod hMethod) (plain_of_isMethod hMethod')
    (mark_not_plain (by decide)) (mark_not_plain (by decide)) hName
  obtain rfl := String.toList_inj.mp hMethodSame
  obtain ⟨rfl, hTyRest⟩ := arguments_unambiguous hArguments hArguments' (List.cons.inj hMore).2
  have hTyText : ty.text.toList ++ [] = ty'.text.toList ++ [] := by rw [hTyRest]
  obtain ⟨rfl, -⟩ := Ty.text_unambiguous hTy hTy' ends_nil ends_nil hTyText
  rfl

/-- Of the right-hand sides only invocations have the form of one: the words of the other calls are
their own. -/
theorem Instr.Invocation.rhs_of_form {v : Vocabulary} (ha : a.Invocation v) (hb : b.Rhs v)
    (h : a.form = b.form) : b.Invocation v := by
  cases ha with
  | call hKind =>
  cases hb with
  | invocation hCall => exact hCall
  | newArray | newObject => exact (hKind.1 (InstrForm.call.inj h)).elim
  | arrayLength => exact (hKind.2 (InstrForm.call.inj h)).elim
  | _ => cases h

/-- An array has a size, an object none, so that their allocations differ behind the word. -/
theorem newArray_ne_newObject {size : Operand} {className : String} (hName : isName className = true) :
    (Instr.call .new (.classRef "array") none [size] .intArray).rest ≠
      (Instr.call .new (.classRef className) none [] (.object className)).rest := by
  intro h
  have hObject : (Ty.object className).isArray = false := rfl
  have hWords : (Operand.classRef "array").text.toList ++ ',' :: (' ' :: size.text.toList ++
      ')' :: Ty.intArray.text.toList) = (Operand.classRef className).text.toList ++
        ')' :: (Ty.object className).text.toList := by
    simpa [Instr.rest, callOpening, argumentsText, Operand.text, hObject] using h
  have hArray : isName "array" = true := by decide
  have hMore := (Operand.text_unambiguous (.simple (.classRef hArray)) (.simple (.classRef hName))
    (ends_cons (by decide)) (ends_cons (by decide)) hWords).2
  cases (List.cons.inj hMore).1

/-- The text of a right-hand side determines it, by cases on the form, which the text determines as
well. -/
theorem Instr.Rhs.text_injective (ha : a.Rhs .readable) (hb : b.Rhs .readable)
    (h : a.text.toList = b.text.toList) : a = b := by
  obtain ⟨hForm, hOpening, hRest⟩ := text_split ha.opening_flat hb.opening_flat h
  have hSpace {t : List Char} : Ends (' ' :: t) := ends_cons (by decide)
  have hComma {t : List Char} : Ends (',' :: t) := ends_cons (by decide)
  have hClose {t : List Char} : Ends (')' :: t) := ends_cons (by decide)
  cases ha with
  | operand hOperand =>
      cases hb with
      | operand =>
          obtain rfl := Option.some.inj hOpening
          rfl
      | binary => cases hRest
      | invocation hCall => cases hCall.rhs_of_form (.operand hOperand) hForm.symm
      | _ => cases hForm
  | binary hOp hLeft hRight hTy =>
      cases hb with
      | operand => cases hRest
      | binary _ _ hRight' hTy' =>
          obtain rfl := Option.some.inj hOpening
          obtain ⟨rfl, rfl, hOperand⟩ :=
            operator_unambiguous hTy hTy' hSpace hSpace (List.cons.inj hRest).2
          have hText := congrArg (· ++ []) (List.cons.inj hOperand).2
          obtain ⟨rfl, -⟩ := Operand.text_unambiguous (.simple hRight) (.simple hRight') ends_nil
            ends_nil hText
          rfl
      | invocation hCall => cases hCall.rhs_of_form (.binary hOp hLeft hRight hTy) hForm.symm
      | _ => cases hForm
  | not hOperand =>
      cases hb with
      | not hOperand' =>
          have hText := congrArg (· ++ []) (List.append_cancel_left (List.cons.inj hRest).2)
          obtain ⟨rfl, -⟩ := Operand.text_unambiguous (.simple hOperand) (.simple hOperand') ends_nil
            ends_nil (List.cons.inj hText).2
          rfl
      | invocation hCall => cases hCall.rhs_of_form (.not hOperand) hForm.symm
      | _ => cases hForm
  | getField hObject hField hTy =>
      cases hb with
      | getField hObject' hField' hTy' =>
          obtain ⟨rfl, hNamed⟩ := Operand.text_unambiguous (.simple hObject) (.simple hObject') hComma
            hComma (List.cons.inj hRest).2
          simp only [List.cons.injEq, true_and] at hNamed
          obtain ⟨rfl, rfl, -⟩ := named_unambiguous hField hField' hTy hTy' hClose hClose hNamed
          rfl
      | invocation hCall => cases hCall.rhs_of_form (.getField hObject hField hTy) hForm.symm
      | _ => cases hForm
  | newArray hSize =>
      cases hb with
      | newArray hSize' =>
          have hArguments := List.append_cancel_left (List.cons.inj hRest).2
          obtain ⟨hSame, -⟩ := arguments_unambiguous (List.forall_mem_singleton.mpr hSize)
            (List.forall_mem_singleton.mpr hSize') hArguments
          obtain ⟨rfl, -⟩ := List.cons.inj hSame
          rfl
      | newObject hName' => exact (newArray_ne_newObject hName' hRest).elim
      | invocation hCall => cases hCall.rhs_of_form (.newArray hSize) hForm.symm
      | _ => cases hForm
  | newObject hName hTy =>
      cases hb with
      | newArray => exact (newArray_ne_newObject hName hRest.symm).elim
      | newObject hName' =>
          obtain rfl : _ = _ := Operand.classRef.inj (Operand.text_unambiguous (.simple (.classRef hName))
            (.simple (.classRef hName')) hClose hClose (List.cons.inj hRest).2).1
          rfl
      | invocation hCall => cases hCall.rhs_of_form (.newObject hName hTy) hForm.symm
      | _ => cases hForm
  | arrayLength hOperand =>
      cases hb with
      | arrayLength hOperand' =>
          obtain ⟨rfl, -⟩ := Operand.text_unambiguous (.simple hOperand) (.simple hOperand') hClose
            hClose (List.cons.inj hRest).2
          rfl
      | invocation hCall => cases hCall.rhs_of_form (.arrayLength hOperand) hForm.symm
      | _ => cases hForm
  | invocation hCall => exact hCall.text_injective (hCall.rhs_of_form hb hForm) h

/-- A condition is told from its text up to the bracket that closes it. A single operand ends at the
bracket, where a comparison goes on with its operator. -/
theorem Condition.text_unambiguous {c c' : Condition} (hc : c.Formed .readable)
    (hc' : c'.Formed .readable)
    (h : c.text.toList ++ ')' :: r = c'.text.toList ++ ')' :: s) : c = c' ∧ r = s := by
  have hSpace {t : List Char} : Ends (' ' :: t) := ends_cons (by decide)
  have hClose {t : List Char} : Ends (')' :: t) := ends_cons (by decide)
  have hCompare {op : BinaryOp} {left right : Operand} {t : List Char} :
      (Condition.compare op left right).text.toList ++ t = left.text.toList ++ ' ' ::
        (op.text.toList ++ (Ty.boolean.text.toList ++ ' ' :: (right.text.toList ++ t))) := by
    simp [Condition.text, Ty.text]
  cases hc with
  | single ho =>
      cases hc' with
      | single ho' =>
          obtain ⟨rfl, hRest⟩ := Operand.text_unambiguous (.simple ho) (.simple ho') hClose hClose h
          exact ⟨rfl, (List.cons.inj hRest).2⟩
      | compare _ hLeft' _ =>
          rw [hCompare] at h
          cases (Operand.text_unambiguous (.simple ho) (.simple hLeft') hClose hSpace h).2
  | compare _ hLeft hRight =>
      rw [hCompare] at h
      cases hc' with
      | single ho' => cases (Operand.text_unambiguous (.simple hLeft) (.simple ho') hSpace hClose h).2
      | compare _ hLeft' hRight' =>
          rw [hCompare] at h
          obtain ⟨rfl, hMore⟩ := Operand.text_unambiguous (.simple hLeft) (.simple hLeft') hSpace
            hSpace h
          obtain ⟨rfl, -, hOperand⟩ := operator_unambiguous rfl rfl hSpace hSpace
            (List.cons.inj hMore).2
          obtain ⟨rfl, hRest⟩ := Operand.text_unambiguous (.simple hRight) (.simple hRight') hClose
            hClose (List.cons.inj hOperand).2
          exact ⟨rfl, (List.cons.inj hRest).2⟩

/-- A label reads as a name. -/
theorem isName_label (l : Label) : isName l.text = true := by
  have hKind : isName (l.kind.text ++ "_") = true := by cases l.kind <;> decide
  refine isName_append hKind (fun c hc => not_mem_marks_of_isDigit (plain_of_mem_digits hc)) ?_
  rw [Ne, ← String.toList_inj, String.toList_append, String.toList_append]
  intro hSame
  cases hText : l.kind <;> rw [hText] at hSame <;> cases (List.cons.inj hSame).1

/-- What an assignment shows behind its destination is not what a return shows behind its word. -/
theorem assign_ne_ret {dest : Operand} {ty ty' : Ty} {rhs : Instr} {value : Option Operand}
    (hValue : ∀ o ∈ value, o.Simple .readable) :
    (Instr.assign dest ty rhs).rest ≠ (Instr.ret value ty').rest := by
  intro h
  cases value with
  | none => cases h
  | some o =>
      have hMark := congrArg (· ++ []) (List.cons.inj h).2
      exact (Operand.Flat.simple (hValue o rfl)).text_ne_mark (by decide) hMark.symm

theorem Operand.Target.flat {v : Vocabulary} {o : Operand} (h : o.Target v) : o.Flat v := by
  cases h with
  | «variable» hName hTy => exact .simple (.variable hName hTy)
  | element hArray hPlace hTy => exact .element hArray hPlace hTy

theorem Instr.Formed.opening_flat {i : Instr} (h : i.Formed .readable) :
    ∀ o ∈ i.opening, o.Flat .readable := by
  cases h with
  | assign hDest _ _ =>
      rintro _ ⟨⟩
      exact hDest.flat
  | ret _ hTy =>
      have hName : isName "ret" = true := by decide
      rintro _ ⟨⟩
      exact .simple (.variable hName hTy)
  | label l => exact flat_word (isName_label l)
  | invocation hCall => exact hCall.opening_flat
  | _ => exact flat_word (by decide)

/-- Of the instructions of lowered code only invocations have the form of one, so texts of calls are
compared with texts of calls. -/
theorem Instr.Invocation.formed_of_form {v : Vocabulary} (ha : a.Invocation v) (hb : b.Formed v)
    (h : a.form = b.form) : b.Invocation v := by
  cases ha
  cases hb with
  | invocation hCall => exact hCall
  | _ => cases h

/-- The text of an instruction of lowered code determines it, by cases on the form. -/
theorem Instr.Formed.text_injective (ha : a.Formed .readable) (hb : b.Formed .readable)
    (h : a.text.toList = b.text.toList) : a = b := by
  obtain ⟨hForm, hOpening, hRest⟩ := text_split ha.opening_flat hb.opening_flat h
  have hSpace {t : List Char} : Ends (' ' :: t) := ends_cons (by decide)
  have hComma {t : List Char} : Ends (',' :: t) := ends_cons (by decide)
  have hClose {t : List Char} : Ends (')' :: t) := ends_cons (by decide)
  cases ha with
  | assign hDest hTy hRhs =>
      cases hb with
      | assign hDest' hTy' hRhs' =>
          obtain rfl := Option.some.inj hOpening
          simp only [rest, List.cons.injEq, true_and] at hRest
          obtain ⟨rfl, hValue⟩ := Ty.text_unambiguous hTy hTy' hSpace hSpace hRest
          obtain rfl := hRhs.text_injective hRhs' (List.cons.inj hValue).2
          rfl
      | ret hValue' => exact (assign_ne_ret hValue' hRest).elim
      | branch | goto | label => cases hDest <;> cases hOpening
      | putField => cases hForm
      | invocation hCall => cases hCall.formed_of_form (.assign hDest hTy hRhs) hForm.symm
  | putField hObject hField hTy hValue =>
      cases hb with
      | putField hObject' hField' hTy' hValue' =>
          obtain ⟨rfl, hNamed⟩ := Operand.text_unambiguous (.simple hObject) (.simple hObject') hComma
            hComma (List.cons.inj hRest).2
          simp only [List.cons.injEq, true_and] at hNamed
          obtain ⟨rfl, rfl, hMore⟩ := named_unambiguous hField hField' hTy hTy' hComma hComma hNamed
          simp only [List.cons.injEq, true_and] at hMore
          obtain ⟨rfl, -⟩ := Operand.text_unambiguous (.simple hValue) (.simple hValue') hClose hClose
            hMore
          rfl
      | invocation hCall => cases hCall.formed_of_form (.putField hObject hField hTy hValue) hForm.symm
      | _ => cases hForm
  | @ret value ty hValue hTy =>
      cases hb with
      | assign => exact (assign_ne_ret hValue hRest.symm).elim
      | @ret value' ty' hValue' hTy' =>
          obtain ⟨-, rfl⟩ := Operand.variable.inj (Option.some.inj hOpening)
          cases value with
          | none =>
              cases value' with
              | none => rfl
              | some => cases hRest
          | some o =>
              cases value' with
              | none => cases hRest
              | some o' =>
                  have hText := congrArg (· ++ []) (List.cons.inj hRest).2
                  obtain ⟨rfl, -⟩ := Operand.text_unambiguous (.simple (hValue o rfl))
                    (.simple (hValue' o' rfl)) ends_nil ends_nil hText
                  rfl
      | branch | goto | label => cases hOpening
      | putField => cases hForm
      | invocation hCall => cases hCall.formed_of_form (.ret hValue hTy) hForm.symm
  | branch hCondition target =>
      cases hb with
      | assign hDest => cases hDest <;> cases hOpening
      | ret => cases hOpening
      | branch hCondition' target' =>
          simp only [rest, List.cons.injEq, true_and] at hRest
          obtain ⟨rfl, hTarget⟩ := Condition.text_unambiguous hCondition hCondition' hRest
          simp only [List.cons.injEq, true_and] at hTarget
          obtain rfl := Label.text_injective (String.toList_inj.mp hTarget)
          rfl
      | goto => simp [opening] at hOpening
      | label => cases hRest
      | putField => cases hForm
      | invocation hCall => cases hCall.formed_of_form (.branch hCondition target) hForm.symm
  | goto target =>
      cases hb with
      | assign hDest => cases hDest <;> cases hOpening
      | ret => cases hOpening
      | goto target' =>
          obtain rfl := Label.text_injective (String.toList_inj.mp (List.cons.inj hRest).2)
          rfl
      | branch => simp [opening] at hOpening
      | label => cases hRest
      | putField => cases hForm
      | invocation hCall => cases hCall.formed_of_form (.goto target) hForm.symm
  | label l =>
      cases hb with
      | assign hDest => cases hDest <;> cases hOpening
      | ret => cases hOpening
      | label l' =>
          obtain rfl := Label.text_injective (Operand.classRef.inj (Option.some.inj hOpening))
          rfl
      | branch | goto => cases hRest
      | putField => cases hForm
      | invocation hCall => cases hCall.formed_of_form (.label l) hForm.symm
  | invocation hCall => exact hCall.text_injective (hCall.formed_of_form hb hForm) h

end MiniJava.Code
