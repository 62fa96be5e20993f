import Mathlib.Data.List.Basic
import MiniJava.Proofs.Code.InstrText

/-! The text of a class determines it. No part of the text breaks a line, blank lines stand between the
sections of a class and nowhere else, and each line tells what it shows. -/

namespace MiniJava.Code

/-- A text without signs does not break a line, the line feed being one of the signs. -/
theorem no_break_of_plain {l : List Char} (h : ∀ c ∈ l, c ∉ marks) : '\n' ∉ l :=
  fun hMem => h '\n' hMem (by decide)

theorem no_break_of_isName {s : String} (h : isName s = true) : '\n' ∉ s.toList :=
  no_break_of_plain (plain_of_isName h)

theorem Ty.no_break {ty : Ty} (h : ty.isReadable = true) : '\n' ∉ ty.text.toList := by
  induction ty with
  | object className =>
      have hName := no_break_of_isName (Bool.and_eq_true_iff.mp h).1
      simpa [text] using hName
  | array element ih => simpa [text] using ih h
  | _ => decide

theorem BinaryOp.no_break (op : BinaryOp) : '\n' ∉ op.text.toList := by
  cases op <;> decide

section

variable {o : Operand} {i : Instr}

theorem Operand.Simple.no_break (h : o.Simple .readable) : '\n' ∉ o.text.toList := by
  have hLead := no_break_of_plain (Flat.simple h).lead_plain
  rw [text_toList, List.mem_append]
  rintro (hMem | hMem)
  · exact hLead hMem
  · cases h with
    | literal _ hTy | «variable» _ hTy | self hTy => exact Ty.no_break hTy hMem
    | classRef => cases hMem

theorem Operand.Flat.no_break (h : o.Flat .readable) : '\n' ∉ o.text.toList := by
  cases h with
  | simple hSimple => exact hSimple.no_break
  | element hArray hPlace hTy =>
      have hName := no_break_of_isName hArray
      have hPlaceText := hPlace.no_break
      have hTyText := Ty.no_break hTy
      simp [text, hName, hPlaceText, hTyText]

theorem Condition.Formed.no_break {c : Condition} (h : c.Formed .readable) : '\n' ∉ c.text.toList := by
  cases h with
  | single ho => exact ho.no_break
  | compare _ hLeft hRight =>
      have hLeftText := hLeft.no_break
      have hRightText := hRight.no_break
      simp [text, hLeftText, hRightText, BinaryOp.no_break]

theorem argumentsText_no_break {os : List Operand} (h : ∀ o ∈ os, o.Simple .readable) :
    '\n' ∉ argumentsText os := by
  intro hMem
  obtain ⟨o, ho, hText⟩ := List.mem_flatMap.mp hMem
  have hOperand := (h o ho).no_break
  simp [hOperand] at hText

theorem Instr.Invocation.no_break (h : i.Invocation .readable) : '\n' ∉ i.text.toList := by
  cases h with
  | @call kind target method arguments ty hKind hTarget hMethod hArguments hTy =>
      have hWord := no_break_of_isName (CallKind.isName_text kind)
      have hMethodText := no_break_of_plain (plain_of_isMethod hMethod)
      have hTyText := Ty.no_break hTy
      have hTargetText := hTarget.no_break
      have hArgumentsText := argumentsText_no_break hArguments
      rw [text_toList, opening, rest, callOpening_invocation hKind]
      simp [Operand.text, hWord, hMethodText, hTyText, hTargetText, hArgumentsText]

theorem Instr.Rhs.no_break (h : i.Rhs .readable) : '\n' ∉ i.text.toList := by
  cases h with
  | operand ho => exact ho.no_break
  | binary _ hLeft hRight hTy =>
      have hLeftText := hLeft.no_break
      have hRightText := hRight.no_break
      have hTyText := Ty.no_break hTy
      simp [text, hLeftText, hRightText, hTyText, BinaryOp.no_break]
  | not ho =>
      have hOperand := ho.no_break
      simp [text, Ty.text, hOperand]
  | getField hObject hField hTy =>
      have hObjectText := hObject.no_break
      have hFieldText := no_break_of_isName hField
      have hTyText := Ty.no_break hTy
      simp [text, hObjectText, hFieldText, hTyText]
  | newArray hSize =>
      have hSizeText := hSize.no_break
      simp [text, callHead, hSizeText, Ty.isArray, Ty.intArray, Ty.text]
  | newObject hName hTy =>
      have hNameText := no_break_of_isName hName
      have hTyText := Ty.no_break hTy
      simp [text, callHead, Operand.text, hNameText, hTyText, Ty.isArray]
  | arrayLength ho =>
      have hOperand := ho.no_break
      simp [text, callHead, Ty.text, hOperand]
  | invocation hCall => exact hCall.no_break

theorem Label.no_break (l : Label) : '\n' ∉ l.text.toList := no_break_of_isName (isName_label l)

/-- No instruction breaks a line, and so each has a line of its own in the text of a method. -/
theorem Instr.Formed.no_break (h : i.Formed .readable) : '\n' ∉ i.text.toList := by
  cases h with
  | assign hDest hTy hRhs =>
      have hDestText := hDest.flat.no_break
      have hTyText := Ty.no_break hTy
      have hRhsText := hRhs.no_break
      simp [text, hDestText, hTyText, hRhsText]
  | putField hObject hField hTy hValue =>
      have hObjectText := hObject.no_break
      have hFieldText := no_break_of_isName hField
      have hTyText := Ty.no_break hTy
      have hValueText := hValue.no_break
      simp [text, hObjectText, hFieldText, hTyText, hValueText]
  | @ret value ty hValue hTy =>
      have hTyText := Ty.no_break hTy
      cases value with
      | none => simp [text, hTyText]
      | some o =>
          have hOperand := (hValue o rfl).no_break
          simp [text, hTyText, hOperand]
  | branch hCondition target =>
      have hConditionText := hCondition.no_break
      simp [text, hConditionText, target.no_break]
  | goto target => simp [text, target.no_break]
  | label l => simp [text, l.no_break]
  | invocation hCall => exact hCall.no_break

end

/-- Parts that hold no separator are told apart by the separators between them. There must be parts,
since no parts and one empty part look alike. -/
theorem intercalate_injective {α : Type} [BEq α] [LawfulBEq α] {sep : α} {ls ms : List (List α)}
    (hls : ∀ l ∈ ls, sep ∉ l) (hms : ∀ m ∈ ms, sep ∉ m) (hNil : ls ≠ []) (hNil' : ms ≠ [])
    (h : [sep].intercalate ls = [sep].intercalate ms) : ls = ms := by
  rw [← List.splitOn_intercalate sep hls hNil, ← List.splitOn_intercalate sep hms hNil', h]

/-- Parts each with the separator behind it, and one last part. -/
theorem flatMap_snoc_append {α : Type} (sep : α) (ls : List (List α)) (last : List α) :
    ls.flatMap (· ++ [sep]) ++ last = [sep].intercalate (ls ++ [last]) := by
  induction ls with
  | nil => simp
  | cons l ls ih =>
      have hNil : ls ++ [last] ≠ [] := by simp
      rw [List.flatMap_cons, List.append_assoc, ih, List.cons_append,
        List.intercalate_cons_of_ne_nil hNil]

/-- One first part, and parts each with the separator before it. -/
theorem append_flatMap_cons {α : Type} (sep : α) (first : List α) (ls : List (List α)) :
    first ++ ls.flatMap (sep :: ·) = [sep].intercalate (first :: ls) := by
  induction ls generalizing first with
  | nil => simp
  | cons l ls ih => simp [List.intercalate_cons_cons, ← ih l]

/-- Lists are the same if each of their items can be told from what is shown of it. -/
theorem map_injective_on {α β : Type} {p : α → Prop} {f : α → β}
    (hf : ∀ a b, p a → p b → f a = f b → a = b) {l m : List α} (hl : ∀ a ∈ l, p a)
    (hm : ∀ a ∈ m, p a) (h : l.map f = m.map f) : l = m := by
  induction l generalizing m with
  | nil => exact (List.map_eq_nil_iff.mp h.symm).symm
  | cons a l ih =>
      obtain ⟨b, m, rfl, hHead, hTail⟩ := List.map_eq_cons_iff.mp h.symm
      obtain ⟨ha, hl⟩ := List.forall_mem_cons.mp hl
      obtain ⟨hb, hm⟩ := List.forall_mem_cons.mp hm
      rw [hf a b ha hb hHead.symm, ih hl hm hTail.symm]

/-- What stands in joined parts is the separator or stands in one of the parts. -/
theorem mem_intercalate {α : Type} {sep a : α} {ls : List (List α)}
    (h : a ∈ [sep].intercalate ls) : a = sep ∨ ∃ l ∈ ls, a ∈ l := by
  cases ls with
  | nil => cases h
  | cons first ls =>
      rw [← append_flatMap_cons, List.mem_append] at h
      rcases h with hFirst | hRest
      · exact .inr ⟨first, List.mem_cons_self, hFirst⟩
      · obtain ⟨l, hl, hMem⟩ := List.mem_flatMap.mp hRest
        rcases List.mem_cons.mp hMem with rfl | hMem
        · exact .inl rfl
        · exact .inr ⟨l, List.mem_cons_of_mem _ hl, hMem⟩

/-- A line that neither holds a line feed nor ends with a carriage return. -/
def IsLine (l : List Char) : Prop := '\n' ∉ l ∧ l.getLast? ≠ some '\r'

/-- A line that ends in a sign other than a carriage return is read back as it is. All lines of a method
end so. -/
theorem isLine_snoc {l : List Char} {c : Char} (h : '\n' ∉ l) (hc : '\n' ≠ c ∧ c ≠ '\r') :
    IsLine (l ++ [c]) :=
  ⟨by simp [h, hc.1], by simp [hc.2]⟩

namespace ClassUnit

/-- Signs that are no line feed are gathered for the line that is being read. -/
theorem linesFrom_append {l : List Char} (h : '\n' ∉ l) (line rest : List Char) :
    linesFrom line (l ++ rest) = linesFrom (l.reverse ++ line) rest := by
  induction l generalizing line with
  | nil => rfl
  | cons c l ih =>
      obtain ⟨hHead, hTail⟩ : '\n' ≠ c ∧ '\n' ∉ l := by simpa using h
      have hStep : linesFrom line (c :: (l ++ rest)) = linesFrom (c :: line) (l ++ rest) := by
        rw [linesFrom]
        exact hHead.symm
      rw [List.cons_append, hStep, ih hTail, List.reverse_cons, List.append_assoc]
      rfl

theorem dropReturn_reverse {l : List Char} (h : l.getLast? ≠ some '\r') :
    dropReturn l.reverse = l.reverse := by
  rw [← List.head?_reverse] at h
  cases hRev : l.reverse with
  | nil => rfl
  | cons c rest =>
      rw [hRev] at h
      unfold dropReturn
      split
      next hSame =>
        obtain ⟨rfl, -⟩ := List.cons.inj hSame
        exact (h rfl).elim
      next => rfl

/-- The lines of a text that lines make up are those lines. The last one has no line feed behind it. -/
theorem linesFrom_intercalate {ls : List (List Char)} {last : List Char} (h : ∀ l ∈ ls, IsLine l)
    (hLast : '\n' ∉ last) (hNil : last ≠ []) :
    linesFrom [] (['\n'].intercalate (ls ++ [last])) = ls ++ [last] := by
  rw [← flatMap_snoc_append]
  induction ls with
  | nil =>
      rw [List.flatMap_nil, List.nil_append, ← List.append_nil last, linesFrom_append hLast]
      simp [linesFrom, hNil]
  | cons l ls ih =>
      obtain ⟨⟨hBreak, hReturn⟩, hRest⟩ := List.forall_mem_cons.mp h
      rw [List.flatMap_cons, List.append_assoc, List.append_assoc, linesFrom_append hBreak,
        List.append_nil, List.singleton_append, linesFrom, dropReturn_reverse hReturn, ih hRest,
        List.reverse_reverse]
      rfl

end ClassUnit

/-- Four blanks. -/
def indent : List Char := [' ', ' ', ' ', ' ']

namespace Method

/-- The words before the name of a method, which appear in this order if at all. -/
def modifierWords (m : Method) : List (List Char) :=
  (if m.isPublic then [['p', 'u', 'b', 'l', 'i', 'c']] else []) ++
    (if m.isStatic then [['s', 't', 'a', 't', 'i', 'c']] else []) ++
    if m.isVarargs then [['v', 'a', 'r', 'a', 'r', 'g', 's']] else []

/-- The parameters, with commas between them and none before the first. -/
def parametersText (ps : List Variable) : List Char :=
  (String.intercalate ", " (ps.map Variable.text)).toList

/-- The first line of a method. -/
def headerLine (m : Method) : List Char :=
  '.' :: 'm' :: 'e' :: 't' :: 'h' :: 'o' :: 'd' :: ' ' :: (m.modifierWords.flatMap (· ++ [' ']) ++ m.name.toList) ++
    '(' :: (parametersText m.parameters ++ ')' :: (m.returnType.text.toList ++ [' '])) ++ ['\x7b']

/-- The line of a body that shows an instruction. -/
def bodyLine : Instr → List Char
  | .label l => indent ++ l.text.toList ++ [':']
  | i => indent ++ (indent ++ i.text.toList) ++ [';']

/-- The lines of a method: its header, one for each instruction, and the closing bracket. -/
def lines (m : Method) : List (List Char) := m.headerLine :: m.body.map bodyLine ++ [['\x7d']]

theorem modifiers_toList (m : Method) :
    m.modifiers.toList = m.modifierWords.flatMap (· ++ [' ']) := by
  cases m with
  | mk _ isPublic isStatic isVarargs =>
      cases isPublic <;> cases isStatic <;> cases isVarargs <;> simp [modifiers, modifierWords]

theorem instrLine_toList (i : Instr) : (instrLine i).toList = bodyLine i ++ ['\n'] := by
  have hOther (s : String) :
      ("        " ++ s ++ ";\n").toList = indent ++ (indent ++ s.toList) ++ [';'] ++ ['\n'] := by
    simp [indent]
  cases i with
  | label l => simp [instrLine, bodyLine, indent, Instr.text]
  | _ => exact hOther _

theorem text_toList (m : Method) : m.text.toList = ['\n'].intercalate m.lines := by
  have hBody : (String.join (m.body.map instrLine)).toList =
      (m.body.map bodyLine).flatMap (· ++ ['\n']) := by
    rw [String.toList_join, List.flatMap_map, List.flatMap_map]
    exact List.flatMap_congr fun i _ => instrLine_toList i
  unfold text
  rw [lines, ← flatMap_snoc_append]
  simp [modifiers_toList, hBody, headerLine, parametersText]

theorem modifierWords_plain (m : Method) : ∀ w ∈ m.modifierWords, ∀ c ∈ w, c ∉ marks := by
  intro w hw
  simp only [modifierWords, List.mem_append, List.mem_ite_nil_right, List.mem_singleton] at hw
  rcases hw with (⟨-, rfl⟩ | ⟨-, rfl⟩) | ⟨-, rfl⟩ <;> exact plain_of_all (by decide)

/-- The words tell which flags are set, since no two flags share a word and their order is fixed. -/
theorem modifierWords_injective {m m' : Method} (h : m.modifierWords = m'.modifierWords) :
    m.isPublic = m'.isPublic ∧ m.isStatic = m'.isStatic ∧ m.isVarargs = m'.isVarargs := by
  have hFlag (m : Method) : m.isPublic = decide (['p', 'u', 'b', 'l', 'i', 'c'] ∈ m.modifierWords) ∧
      m.isStatic = decide (['s', 't', 'a', 't', 'i', 'c'] ∈ m.modifierWords) ∧
      m.isVarargs = decide (['v', 'a', 'r', 'a', 'r', 'g', 's'] ∈ m.modifierWords) := by
    simp [modifierWords]
  obtain ⟨hPublic, hStatic, hVarargs⟩ := hFlag m
  obtain ⟨hPublic', hStatic', hVarargs'⟩ := hFlag m'
  rw [hPublic, hStatic, hVarargs, h]
  exact ⟨hPublic'.symm, hStatic'.symm, hVarargs'.symm⟩

/-- A parameter, as an operand. -/
def parameterOperand (p : Variable) : Operand := .variable p.name p.ty

theorem parameterOperands_injective : Function.Injective (List.map parameterOperand) := by
  refine List.map_injective_iff.mpr ?_
  rintro ⟨name, ty⟩ ⟨name', ty'⟩ ⟨⟩
  rfl

/-- A list of parameters that is not empty reads as an operand with arguments behind it. In this way the
lemmas about arguments serve for headers too. -/
theorem parametersText_cons (p : Variable) (ps : List Variable) :
    parametersText (p :: ps) =
      (parameterOperand p).text.toList ++ argumentsText (ps.map parameterOperand) := by
  induction ps generalizing p with
  | nil => simp [parametersText, argumentsText, parameterOperand, Operand.text, Variable.text]
  | cons q ps ih =>
      have hRest := ih q
      simp only [parametersText, argumentsText, List.map_cons, List.flatMap_cons,
        String.intercalate_cons_cons, String.toList_append] at hRest ⊢
      rw [hRest]
      simp [parameterOperand, Operand.text, Variable.text]

section

variable {ps qs : List Variable} {r s : List Char}

theorem parameterOperand_simple {p : Variable} (h : p.Within .readable) :
    (parameterOperand p).Simple .readable :=
  .variable h.name h.ty

theorem parameterOperands_simple (h : ∀ p ∈ ps, p.Within .readable) :
    ∀ o ∈ ps.map parameterOperand, o.Simple .readable :=
  List.forall_mem_map.mpr fun p hp => parameterOperand_simple (h p hp)

theorem parametersText_no_break (h : ∀ p ∈ ps, p.Within .readable) : '\n' ∉ parametersText ps := by
  cases ps with
  | nil => simp [parametersText]
  | cons p ps =>
      obtain ⟨hp, hRest⟩ := List.forall_mem_cons.mp h
      rw [parametersText_cons, List.mem_append]
      exact not_or.mpr ⟨(parameterOperand_simple hp).no_break,
        argumentsText_no_break (parameterOperands_simple hRest)⟩

/-- Lists of parameters up to the closing bracket are the same if their texts are. An empty list is the
case in which the bracket comes at once. -/
theorem parameters_unambiguous (hps : ∀ p ∈ ps, p.Within .readable)
    (hqs : ∀ q ∈ qs, q.Within .readable)
    (h : parametersText ps ++ ')' :: r = parametersText qs ++ ')' :: s) : ps = qs ∧ r = s := by
  have hFirst {p : Variable} {ps : List Variable} {r s : List Char} (hp : p.Within .readable) :
      parametersText (p :: ps) ++ r ≠ ')' :: s := by
    rw [parametersText_cons, List.append_assoc]
    exact (Operand.Flat.simple (parameterOperand_simple hp)).text_ne_mark (by decide)
  cases ps with
  | nil =>
      cases qs with
      | nil => exact ⟨rfl, (List.cons.inj h).2⟩
      | cons q qs => exact (hFirst (hqs q List.mem_cons_self) h.symm).elim
  | cons p ps =>
      cases qs with
      | nil => exact (hFirst (hps p List.mem_cons_self) h).elim
      | cons q qs =>
          obtain ⟨hp, hRest⟩ := List.forall_mem_cons.mp hps
          obtain ⟨hq, hRest'⟩ := List.forall_mem_cons.mp hqs
          rw [parametersText_cons, parametersText_cons, List.append_assoc, List.append_assoc] at h
          obtain ⟨hHead, hMore⟩ := Operand.text_unambiguous (.simple (parameterOperand_simple hp))
            (.simple (parameterOperand_simple hq)) (ends_arguments _ r) (ends_arguments _ s) h
          obtain ⟨hTail, hSame⟩ := arguments_unambiguous (parameterOperands_simple hRest)
            (parameterOperands_simple hRest') hMore
          refine ⟨parameterOperands_injective ?_, hSame⟩
          rw [List.map_cons, List.map_cons, hHead, hTail]

end

section

variable {m m' : Method}

theorem isLine_headerLine (h : m.Formed .readable) : IsLine m.headerLine := by
  have hWords : ∀ w ∈ m.modifierWords, '\n' ∉ w :=
    fun w hw => no_break_of_plain (m.modifierWords_plain w hw)
  have hName := no_break_of_isName h.name
  have hParameters := parametersText_no_break h.parameters
  have hTy := Ty.no_break h.returnType
  refine isLine_snoc ?_ (by decide)
  simp only [List.mem_append, List.mem_cons, List.mem_flatMap]
  simp_all

/-- The header determines the name, the flags, the parameters and the type, each of which ends at its own
sign. -/
theorem headerLine_injective (h : m.Formed .readable) (h' : m'.Formed .readable)
    (hSame : m.headerLine = m'.headerLine) :
    m.name = m'.name ∧ m.modifierWords = m'.modifierWords ∧ m.parameters = m'.parameters ∧
      m.returnType = m'.returnType := by
  have hPlain {m : Method} (h : m.Formed .readable) :
      ∀ w ∈ m.modifierWords ++ [m.name.toList], ∀ c ∈ w, c ∉ marks :=
    List.forall_mem_append.mpr
      ⟨m.modifierWords_plain, List.forall_mem_singleton.mpr (plain_of_isName h.name)⟩
  have hWords {m : Method} (h : m.Formed .readable) :
      ∀ w ∈ m.modifierWords ++ [m.name.toList], ' ' ∉ w :=
    fun w hw hMem => hPlain h w hw ' ' hMem (by decide)
  have hFront {m : Method} (h : m.Formed .readable) :
      ∀ c ∈ m.modifierWords.flatMap (· ++ [' ']) ++ m.name.toList, c ≠ '(' := by
    obtain ⟨hModifiers, hName⟩ := List.forall_mem_append.mp (hPlain h)
    rintro c hc rfl
    rcases List.mem_append.mp hc with hMem | hMem
    · obtain ⟨w, hw, hMem⟩ := List.mem_flatMap.mp hMem
      rcases List.mem_append.mp hMem with hMem | hMem
      · exact hModifiers w hw '(' hMem (by decide)
      · cases List.mem_singleton.mp hMem
    · exact hName _ (List.mem_singleton.mpr rfl) '(' hMem (by decide)
  have hBracket {t : List Char} : ∀ c ∈ ('(' :: t).head?, ¬c ≠ '(' := by
    rintro _ ⟨⟩ hNe
    exact hNe rfl
  have hSpace : Ends [' '] := ends_cons (by decide)
  simp only [headerLine, List.append_cancel_right_eq, List.cons_append, List.cons.injEq, true_and]
    at hSame
  obtain ⟨hStart, hMore⟩ := span_unique (hFront h) (hFront h') hBracket hBracket hSame
  rw [flatMap_snoc_append, flatMap_snoc_append] at hStart
  obtain ⟨hModifiers, hName⟩ := List.append_inj'
    (intercalate_injective (hWords h) (hWords h') (by simp) (by simp) hStart) rfl
  obtain ⟨hParameters, hTy⟩ := parameters_unambiguous h.parameters h'.parameters
    (List.cons.inj hMore).2
  obtain ⟨hReturn, -⟩ := Ty.text_unambiguous h.returnType h'.returnType hSpace hSpace hTy
  exact ⟨String.toList_inj.mp (List.cons.inj hName).1, hModifiers, hParameters, hReturn⟩

end

/-- A label is shown with a colon, less indented, and any other instruction with a semicolon. -/
theorem bodyLine_eq (i : Instr) :
    (∃ l, i = .label l ∧ bodyLine i = indent ++ l.text.toList ++ [':']) ∨
      bodyLine i = indent ++ (indent ++ i.text.toList) ++ [';'] := by
  cases i with
  | label l => exact .inl ⟨l, rfl, rfl⟩
  | _ => exact .inr rfl

theorem isLine_bodyLine {i : Instr} (h : i.Formed .readable) : IsLine (bodyLine i) := by
  rcases bodyLine_eq i with ⟨l, -, hLine⟩ | hLine
  · rw [hLine]
    exact isLine_snoc (by simp [indent, l.no_break]) (by decide)
  · rw [hLine]
    exact isLine_snoc (by simp [indent, h.no_break]) (by decide)

/-- The line of an instruction determines it: colons tell labels from the rest, and then the text
does. -/
theorem bodyLine_injective {i j : Instr} (hi : i.Formed .readable) (hj : j.Formed .readable)
    (h : bodyLine i = bodyLine j) : i = j := by
  have hLabel {l : Label} {s t : List Char} : indent ++ l.text.toList ++ s ≠ indent ++ (indent ++ t) := by
    rw [List.append_assoc, Ne, List.append_cancel_left_eq]
    exact (Operand.Flat.simple (.classRef (isName_label l))).text_ne_mark (by decide)
  rcases bodyLine_eq i with ⟨l, rfl, hLine⟩ | hLine
  · rcases bodyLine_eq j with ⟨l', rfl, hLine'⟩ | hLine'
    · rw [hLine, hLine', List.append_cancel_right_eq, List.append_cancel_left_eq] at h
      rw [Label.text_injective (String.toList_inj.mp h)]
    · rw [hLine, hLine', List.append_assoc indent, List.append_assoc indent] at h
      exact (hLabel h).elim
  · rcases bodyLine_eq j with ⟨l', rfl, hLine'⟩ | hLine'
    · rw [hLine, hLine', List.append_assoc indent, List.append_assoc indent] at h
      exact (hLabel h.symm).elim
    · rw [hLine, hLine', List.append_cancel_right_eq, List.append_cancel_left_eq,
        List.append_cancel_left_eq] at h
      exact hi.text_injective hj h

/-- The lines of a method determine it: the first its head, and each of the others one instruction. -/
theorem lines_injective {m m' : Method} (h : m.Formed .readable) (h' : m'.Formed .readable)
    (hSame : m.lines = m'.lines) : m = m' := by
  obtain ⟨hHeader, hRest⟩ := List.cons.inj hSame
  obtain ⟨hName, hModifiers, hParameters, hReturn⟩ := headerLine_injective h h' hHeader
  obtain ⟨hPublic, hStatic, hVarargs⟩ := modifierWords_injective hModifiers
  have hBody : m.body = m'.body :=
    map_injective_on (fun _ _ => bodyLine_injective) h.body h'.body
      (List.append_cancel_right hRest)
  cases m
  cases m'
  simp_all

/-- None of the lines of a method is broken, so that the lines of the text are these lines. -/
theorem isLine_lines {m : Method} (h : m.Formed .readable) : ∀ l ∈ m.lines, IsLine l := by
  have hEnd : IsLine ['\x7d'] := isLine_snoc List.not_mem_nil (by decide)
  have hBody : ∀ l ∈ m.body.map bodyLine, IsLine l :=
    List.forall_mem_map.mpr fun i hi => isLine_bodyLine (h.body i hi)
  exact List.forall_mem_append.mpr
    ⟨List.forall_mem_cons.mpr ⟨isLine_headerLine h, hBody⟩, List.forall_mem_singleton.mpr hEnd⟩

end Method

namespace ClassUnit

/-- The line of an import. -/
def importLine (path : String) : List Char :=
  'i' :: 'm' :: 'p' :: 'o' :: 'r' :: 't' :: ' ' :: path.toList ++ [';']

/-- The line with the names of a class and its super class. -/
def nameLine (name : String) : Option String → List Char
  | some superClass =>
      name.toList ++ ' ' :: 'e' :: 'x' :: 't' :: 'e' :: 'n' :: 'd' :: 's' :: ' ' :: superClass.toList ++
        [' ', '\x7b']
  | none => name.toList ++ [' ', '\x7b']

/-- The line of a field. -/
def fieldLine (x : Variable) : List Char :=
  indent ++ '.' :: 'f' :: 'i' :: 'e' :: 'l' :: 'd' :: ' ' :: 'p' :: 'u' :: 'b' :: 'l' :: 'i' :: 'c' :: ' ' ::
    x.text.toList ++ [';']

/-- The three lines of the constructor that is added to a class. -/
def constructorLines (name : String) : List (List Char) :=
  ["    .construct " ++ name ++ "().V \x7b", "        invokespecial(this, \"<init>\").V;",
    "    \x7d"].map String.toList

/-- The lines of a method, further in by four blanks, as a class shows them. -/
def methodLines (m : Method) : List (List Char) := m.lines.map (indent ++ ·)

/-- The text of a method is indented by its lines, since no instruction holds a line feed. -/
theorem indented_toList {m : Method} (h : m.Formed .readable) :
    (indented m.text).toList = (methodLines m).flatMap (· ++ ['\n']) := by
  have hLines : linesFrom [] m.text.toList = m.lines := by
    have hInit := (List.forall_mem_append.mp (m.isLine_lines h)).1
    rw [Method.text_toList]
    exact linesFrom_intercalate hInit (by decide) (by decide)
  rw [indented, hLines, String.toList_join, List.flatMap_map, methodLines, List.flatMap_map]
  exact List.flatMap_congr fun l _ => by simp [indent]

/-- The lines between blank ones. -/
def sections (u : ClassUnit) : List (List (List Char)) :=
  (if u.imports.isEmpty then [] else [u.imports.map importLine]) ++
    (nameLine u.name u.superClass :: u.fields.map fieldLine) ::
      ((if u.hasDefaultConstructor then [constructorLines u.name] else []) ++ u.methods.map methodLines)

/-- The imports are a section of their own if there are any, and there is no blank line for them
otherwise. -/
theorem importLines_toList (imports : List String) (rest : List (List (List Char)))
    (hRest : rest ≠ []) :
    (importLines imports).toList ++ ([[]].intercalate rest).flatMap (· ++ ['\n']) =
      ([[]].intercalate ((if imports.isEmpty then [] else [imports.map importLine]) ++ rest)).flatMap
        (· ++ ['\n']) := by
  unfold importLines
  cases hImports : imports.isEmpty with
  | true => simp
  | false =>
      have hLines : (String.join (imports.map fun path => "import " ++ path ++ ";\n")).toList =
          (imports.map importLine).flatMap (· ++ ['\n']) := by
        rw [String.toList_join, List.flatMap_map, List.flatMap_map]
        exact List.flatMap_congr fun path _ => by simp [importLine]
      simp [hLines, List.intercalate_cons_of_ne_nil hRest]

/-- The line with the names is followed by a line feed in both of its forms. -/
theorem headLine_toList (name : String) (superClass : Option String) :
    (headLine name superClass).toList = nameLine name superClass ++ ['\n'] := by
  cases superClass <;> simp [headLine, nameLine]

theorem constructorText_toList (name : String) :
    (constructorText name).toList = ([] :: constructorLines name).flatMap (· ++ ['\n']) := by
  unfold constructorText
  simp [constructorLines]

/-- The text of a class is its sections, with blank lines between them, and the bracket at the end. -/
theorem text_toList {u : ClassUnit} (h : ∀ m ∈ u.methods, m.Formed .readable) :
    u.text.toList = ['\n'].intercalate ([[]].intercalate u.sections ++ [['\x7d']]) := by
  have hFields : (String.join
      (u.fields.map fun field => "    .field public " ++ field.text ++ ";\n")).toList =
        (u.fields.map fieldLine).flatMap (· ++ ['\n']) := by
    rw [String.toList_join, List.flatMap_map, List.flatMap_map]
    exact List.flatMap_congr fun field _ => by simp [fieldLine, indent]
  have hConstructor : (if u.hasDefaultConstructor then constructorText u.name else "").toList =
      ((if u.hasDefaultConstructor then [constructorLines u.name] else []).flatMap
        ([] :: ·)).flatMap (· ++ ['\n']) := by
    split <;> simp [constructorText_toList]
  have hMethods : (String.join (u.methods.map fun method => "\n" ++ indented method.text)).toList =
      ((u.methods.map methodLines).flatMap ([] :: ·)).flatMap (· ++ ['\n']) := by
    rw [String.toList_join, List.flatMap_map, List.flatMap_map, List.flatMap_assoc]
    exact List.flatMap_congr fun m hm => by simp [indented_toList (h m hm)]
  unfold text
  rw [← flatMap_snoc_append, sections, ← importLines_toList _ _ (List.cons_ne_nil _ _),
    ← append_flatMap_cons]
  simp [headLine_toList, hFields, hConstructor, hMethods]

section

variable {u u' : ClassUnit}

/-- What stands between blank lines is not blank, and none of it breaks a line. -/
def IsShown (l : List Char) : Prop := l ≠ [] ∧ '\n' ∉ l

theorem isShown_importLine (h : u.Formed .readable) :
    ∀ path ∈ u.imports, IsShown (importLine path) := by
  intro path hPath
  obtain ⟨segments, hSegments, rfl⟩ := h.imports path hPath
  have hBreak : '\n' ∉ ['.'].intercalate (segments.map String.toList) := by
    intro hMem
    rcases mem_intercalate hMem with hPoint | ⟨l, hl, hMem⟩
    · cases hPoint
    · obtain ⟨segment, hSegment, rfl⟩ := List.mem_map.mp hl
      exact no_break_of_isName (hSegments segment hSegment) hMem
  exact ⟨by simp [importLine], by simp [importLine, String.toList_intercalate, hBreak]⟩

theorem isShown_nameLine (h : u.Formed .readable) : IsShown (nameLine u.name u.superClass) := by
  have hName := no_break_of_isName h.name
  cases hSuper : u.superClass with
  | none => exact ⟨by simp [nameLine], by simp [nameLine, hName]⟩
  | some superClass =>
      have hSuperName := no_break_of_isName (h.superClass superClass hSuper)
      exact ⟨by simp [nameLine], by simp [nameLine, hName, hSuperName]⟩

theorem isShown_fieldLine {x : Variable} (h : x.Within .readable) : IsShown (fieldLine x) := by
  have hName := no_break_of_isName h.name
  have hTy := Ty.no_break h.ty
  exact ⟨by simp [fieldLine], by simp [fieldLine, indent, Variable.text, hName, hTy]⟩

theorem isShown_constructorLines {name : String} (h : isName name = true) :
    ∀ l ∈ constructorLines name, IsShown l := by
  have hName := no_break_of_isName h
  simp [constructorLines, IsShown, hName]

theorem isShown_methodLines {m : Method} (h : m.Formed .readable) :
    ∀ l ∈ methodLines m, IsShown l := by
  refine List.forall_mem_map.mpr fun l hl => ⟨by simp [indent], ?_⟩
  simp [indent, (m.isLine_lines h l hl).1]

/-- No section holds a blank line, so that blank lines stand between sections and nowhere else. -/
theorem isShown_sections (h : u.Formed .readable) : ∀ s ∈ u.sections, ∀ l ∈ s, IsShown l := by
  intro s hs
  simp only [sections, List.mem_append, List.mem_cons, List.mem_ite_nil_left,
    List.mem_ite_nil_right, List.not_mem_nil, or_false, List.mem_map] at hs
  rcases hs with ⟨-, rfl⟩ | rfl | ⟨-, rfl⟩ | ⟨m, hm, rfl⟩
  · exact List.forall_mem_map.mpr (isShown_importLine h)
  · exact List.forall_mem_cons.mpr ⟨isShown_nameLine h,
      List.forall_mem_map.mpr fun x hx => isShown_fieldLine (h.fields x hx)⟩
  · exact isShown_constructorLines h.name
  · exact isShown_methodLines (h.methods m hm)

/-- Sections are read off the text: blank lines end them, and line feeds end the lines in them. -/
theorem sections_injective (h : u.Formed .readable) (h' : u'.Formed .readable)
    (hText : u.text = u'.text) : u.sections = u'.sections := by
  have hLine {u : ClassUnit} (h : u.Formed .readable) :
      ∀ l ∈ [[]].intercalate u.sections ++ [['\x7d']], '\n' ∉ l := by
    refine List.forall_mem_append.mpr ⟨fun l hl => ?_, by decide⟩
    rcases mem_intercalate hl with rfl | ⟨s, hs, hMem⟩
    · exact List.not_mem_nil
    · exact (isShown_sections h s hs l hMem).2
  have hSection {u : ClassUnit} (h : u.Formed .readable) : ∀ s ∈ u.sections, [] ∉ s :=
    fun s hs hMem => (isShown_sections h s hs [] hMem).1 rfl
  have hNil (u : ClassUnit) : u.sections ≠ [] := by simp [sections]
  have hLines := String.toList_inj.mpr hText
  rw [text_toList h.methods, text_toList h'.methods] at hLines
  have hSame := intercalate_injective (hLine h) (hLine h') (by simp) (by simp) hLines
  exact intercalate_injective (hSection h) (hSection h') (hNil u) (hNil u')
    (List.append_cancel_right hSame)

/-- The names of a class and of the one above it are told by the words between them. -/
theorem nameLine_injective {name name' : String} {superClass superClass' : Option String}
    (h : isName name = true) (h' : isName name' = true)
    (hSame : nameLine name superClass = nameLine name' superClass') :
    name = name' ∧ superClass = superClass' := by
  have hSpace {t : List Char} : ∀ c ∈ (' ' :: t).head?, ¬c ∉ marks := mark_not_plain (by decide)
  cases superClass with
  | none =>
      cases superClass' with
      | none => exact ⟨String.toList_inj.mp (List.append_cancel_right hSame), rfl⟩
      | some =>
          simp only [nameLine, List.append_assoc, List.cons_append] at hSame
          cases (List.cons.inj (span_unique (plain_of_isName h) (plain_of_isName h') hSpace hSpace
            hSame).2).2
  | some _ =>
      cases superClass' with
      | none =>
          simp only [nameLine, List.append_assoc, List.cons_append] at hSame
          cases (List.cons.inj (span_unique (plain_of_isName h) (plain_of_isName h') hSpace hSpace
            hSame).2).2
      | some _ =>
          simp only [nameLine, List.append_assoc, List.cons_append] at hSame
          obtain ⟨hName, hMore⟩ :=
            span_unique (plain_of_isName h) (plain_of_isName h') hSpace hSpace hSame
          simp only [List.cons.injEq, true_and, List.append_cancel_right_eq] at hMore
          exact ⟨String.toList_inj.mp hName, congrArg some (String.toList_inj.mp hMore)⟩

theorem fieldLine_injective (x y : Variable) (hx : x.Within .readable) (hy : y.Within .readable)
    (h : fieldLine x = fieldLine y) : x = y := by
  obtain ⟨name, ty⟩ := x
  obtain ⟨name', ty'⟩ := y
  have hText : name.toList ++ (ty.text.toList ++ [';']) = name'.toList ++ (ty'.text.toList ++ [';']) := by
    simpa [fieldLine, indent, Variable.text] using h
  have hEnd : Ends [';'] := ends_cons (by decide)
  obtain ⟨rfl, rfl, -⟩ := named_unambiguous hx.name hy.name hx.ty hy.ty hEnd hEnd hText
  rfl

theorem importLine_injective : Function.Injective importLine := by
  intro path path' h
  simpa [importLine, String.toList_inj] using h

/-- Imports end with a semicolon, names with a bracket. -/
theorem importLine_ne_nameLine (path name : String) (superClass : Option String) :
    importLine path ≠ nameLine name superClass := by
  have hEnd : ∃ l, nameLine name superClass = l ++ [' ', '\x7b'] := by
    cases superClass with
    | none => exact ⟨_, rfl⟩
    | some => exact ⟨_, rfl⟩
  obtain ⟨l, hLine⟩ := hEnd
  rw [hLine, ← List.singleton_append, ← List.append_assoc]
  intro h
  cases List.append_inj_right' h rfl

/-- The constructor begins with another word than a method. -/
theorem constructorLines_ne_methodLines (name : String) (m : Method) :
    constructorLines name ≠ methodLines m := by
  intro h
  simp [constructorLines, methodLines, Method.lines, Method.headerLine, indent] at h

/-- Taking the four blanks away again leaves the lines of the method, which determine it. All lines have
them in front. -/
theorem methodLines_injective (m m' : Method) (h : m.Formed .readable) (h' : m'.Formed .readable)
    (hSame : methodLines m = methodLines m') : m = m' :=
  Method.lines_injective h h'
    (List.map_injective_iff.mpr (fun _ _ => List.append_cancel_left) hSame)

/-- The text of a class of lowered code determines it. Sections are told apart by the words with which
they begin. -/
theorem text_injective (h : u.Formed .readable) (h' : u'.Formed .readable)
    (hText : u.text = u'.text) : u = u' := by
  have hSections := sections_injective h h' hText
  have hImports : u.imports = u'.imports := by
    rw [sections, sections] at hSections
    cases hEmpty : u.imports.isEmpty with
    | true =>
        cases hEmpty' : u'.imports.isEmpty with
        | true => rw [List.isEmpty_iff.mp hEmpty, List.isEmpty_iff.mp hEmpty']
        | false =>
            rw [hEmpty, hEmpty'] at hSections
            obtain ⟨path, _, hPaths⟩ := List.exists_cons_of_ne_nil (List.isEmpty_eq_false_iff.mp hEmpty')
            rw [hPaths] at hSections
            exact (importLine_ne_nameLine _ _ _
              (List.cons.inj (List.cons.inj hSections).1).1.symm).elim
    | false =>
        cases hEmpty' : u'.imports.isEmpty with
        | true =>
            rw [hEmpty, hEmpty'] at hSections
            obtain ⟨path, _, hPaths⟩ := List.exists_cons_of_ne_nil (List.isEmpty_eq_false_iff.mp hEmpty)
            rw [hPaths] at hSections
            exact (importLine_ne_nameLine _ _ _ (List.cons.inj (List.cons.inj hSections).1).1).elim
        | false =>
            rw [hEmpty, hEmpty'] at hSections
            exact List.map_injective_iff.mpr importLine_injective (List.cons.inj hSections).1
  rw [sections, sections, hImports, List.append_cancel_left_eq] at hSections
  obtain ⟨hHead, hBlocks⟩ := List.cons.inj hSections
  obtain ⟨hNames, hFields⟩ := List.cons.inj hHead
  obtain ⟨hName, hSuper⟩ := nameLine_injective h.name h'.name hNames
  have hFieldsSame : u.fields = u'.fields :=
    map_injective_on fieldLine_injective h.fields h'.fields hFields
  have hMethods (hSame : u.methods.map methodLines = u'.methods.map methodLines) :
      u.methods = u'.methods :=
    map_injective_on methodLines_injective h.methods h'.methods hSame
  have hBlocksSame : u.hasDefaultConstructor = u'.hasDefaultConstructor ∧ u.methods = u'.methods := by
    have hFirst {name : String} {rest : List (List (List Char))} {ms : List Method} :
        constructorLines name :: rest ≠ ms.map methodLines := by
      intro hSame
      obtain ⟨m, _, -, hMethod, -⟩ := List.map_eq_cons_iff.mp hSame.symm
      exact constructorLines_ne_methodLines name m hMethod.symm
    cases hConstructor : u.hasDefaultConstructor <;> cases hConstructor' : u'.hasDefaultConstructor <;>
      rw [hConstructor, hConstructor'] at hBlocks
    · exact ⟨rfl, hMethods hBlocks⟩
    · exact (hFirst hBlocks.symm).elim
    · exact (hFirst hBlocks).elim
    · exact ⟨rfl, hMethods (List.cons.inj hBlocks).2⟩
  obtain ⟨hConstructor, hMethodsSame⟩ := hBlocksSame
  cases u
  cases u'
  simp_all

end

end ClassUnit

end MiniJava.Code
