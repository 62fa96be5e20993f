import MiniJava.Proofs.Code.Forms
import Std.Data.String.ToInt
import Std.Data.String.ToNat

/-! The text of types and operands. A name is told from what follows by the signs between them, so the
text of a type or an operand determines it, with whatever may stand behind. -/

namespace MiniJava

/-- Runs of one kind with nothing of that kind behind them are the same if the wholes are. -/
theorem span_unique {α : Type} {p : α → Prop} {u w r s : List α} (hu : ∀ a ∈ u, p a)
    (hw : ∀ a ∈ w, p a) (hr : ∀ a ∈ r.head?, ¬p a) (hs : ∀ a ∈ s.head?, ¬p a)
    (h : u ++ r = w ++ s) : u = w ∧ r = s := by
  induction u generalizing w with
  | nil =>
      cases w with
      | nil => exact ⟨rfl, h⟩
      | cons b w =>
          obtain rfl : r = b :: (w ++ s) := h
          exact (hr b rfl (hw b List.mem_cons_self)).elim
  | cons a u ih =>
      cases w with
      | nil =>
          obtain rfl : a :: (u ++ r) = s := h
          exact (hs a rfl (hu a List.mem_cons_self)).elim
      | cons b w =>
          obtain ⟨rfl, hTail⟩ := List.cons.inj h
          obtain ⟨rfl, hRest⟩ := ih (fun c hc => hu c (List.mem_cons_of_mem _ hc))
            (fun c hc => hw c (List.mem_cons_of_mem _ hc)) hTail
          exact ⟨rfl, hRest⟩

namespace Code

/-- The signs between the words of code. A name may hold none of them. -/
def marks : List Char := [' ', '\n', '.', ',', ':', ';', '!', '"', '(', ')', '[', ']']

/-- Whether a word can be told from signs, from numbers and from the receiver of the method. Every Java
identifier that is no keyword is such a name. -/
def isName (s : String) : Bool :=
  s ≠ "" && s.toList.all (· ∉ marks) && s.toList.head?.all (fun c => !c.isDigit && c ≠ '-') &&
    s ≠ "this"

theorem isName_iff {s : String} : isName s = true ↔ ((s ≠ "" ∧ ∀ c ∈ s.toList, c ∉ marks) ∧
    ∀ c ∈ s.toList.head?, c.isDigit = false ∧ c ≠ '-') ∧ s ≠ "this" := by
  simp [isName, Option.all_eq_true]

theorem plain_of_all {w : List Char} (h : w.all (· ∉ marks) = true) : ∀ c ∈ w, c ∉ marks := by
  simpa using h

theorem plain_of_isName {s : String} (h : isName s = true) : ∀ c ∈ s.toList, c ∉ marks :=
  (isName_iff.mp h).1.1.2

theorem toList_ne_nil_of_isName {s : String} (h : isName s = true) : s.toList ≠ [] := by
  rw [Ne, String.toList_eq_nil_iff]
  exact (isName_iff.mp h).1.1.1

/-- The words for types that name no class. A class of such a name would be shown as the type is. -/
def typeWords : List String := ["i32", "bool", "String", "V", "array"]

/-- A type whose text can be told from other types. The name of a class must not be one of the words for
types. -/
def Ty.isReadable : Ty → Bool
  | .object className => isName className && className ∉ typeWords
  | .array element => element.isReadable
  | .int32 | .boolean | .string | .void => true

theorem plain_of_mem_digits {n : Nat} {c : Char} (h : c ∈ (toString n).toList) :
    c.isDigit = true := by
  rw [Nat.toString_eq_ofList_toDigits, String.toList_ofList] at h
  exact Nat.isDigit_of_mem_toDigits (by decide) (by decide) h

theorem not_mem_marks_of_isDigit {c : Char} (h : c.isDigit = true) : c ∉ marks := by
  intro hMark
  simp only [marks, List.mem_cons, List.not_mem_nil, or_false] at hMark
  rcases hMark with rfl | rfl | rfl | rfl | rfl | rfl | rfl | rfl | rfl | rfl | rfl | rfl <;> cases h

/-- A name may be gone on with by anything that holds no sign, short of making it the word for the
receiver. -/
theorem isName_append {s t : String} (h : isName s = true) (ht : ∀ c ∈ t.toList, c ∉ marks)
    (hThis : s ++ t ≠ "this") : isName (s ++ t) = true := by
  obtain ⟨⟨⟨-, hPlain⟩, hStart⟩, -⟩ := isName_iff.mp h
  obtain ⟨c, rest, hChars⟩ := List.exists_cons_of_ne_nil (toList_ne_nil_of_isName h)
  have hEmpty : s ++ t ≠ "" := by
    rw [Ne, ← String.toList_eq_nil_iff, String.toList_append, hChars]
    exact List.cons_ne_nil _ _
  have hAll : ∀ c ∈ (s ++ t).toList, c ∉ marks := by
    rw [String.toList_append]
    exact List.forall_mem_append.mpr ⟨hPlain, ht⟩
  have hFirst : (s ++ t).toList.head? = s.toList.head? := by
    rw [String.toList_append, hChars]
    rfl
  exact isName_iff.mpr ⟨⟨⟨hEmpty, hAll⟩, hFirst ▸ hStart⟩, hThis⟩

theorem isName_tempName (n : Nat) : isName (Lowering.tempName n) = true := by
  refine isName_append (by decide) (fun c hc => not_mem_marks_of_isDigit (plain_of_mem_digits hc)) ?_
  rw [Ne, ← String.toList_inj, String.toList_append]
  intro hSame
  cases (List.cons.inj (List.cons.inj hSame).2).1

/-- The names and the types that can be told apart in text. The names of temporaries are among them. -/
def Vocabulary.readable : Vocabulary where
  name s := isName s = true
  ty ty := ty.isReadable = true
  temp := isName_tempName
  int32 := rfl
  boolean := rfl
  intArray := rfl
  void := rfl

/-- What may stand behind a type or an operand: nothing, or a sign that neither could go on with. So the
text is cut at the right place. -/
def Ends (r : List Char) : Prop := ∀ c ∈ r.head?, c ∈ marks ∧ c ≠ '.' ∧ c ≠ '['

theorem ends_nil : Ends [] := nofun

/-- Whether a text may stand behind an operand is told by its first sign alone. -/
theorem ends_cons {c : Char} {r : List Char} (h : c ∈ marks ∧ c ≠ '.' ∧ c ≠ '[') : Ends (c :: r) := by
  rintro _ ⟨⟩
  exact h

/-- No word goes on with what begins with a sign, and none with the end of the text. -/
theorem Ends.not_plain {r : List Char} (h : Ends r) : ∀ c ∈ r.head?, ¬c ∉ marks :=
  fun c hc hPlain => hPlain (h c hc).1

theorem mark_not_plain {c : Char} {r : List Char} (h : c ∈ marks) :
    ∀ d ∈ (c :: r).head?, ¬d ∉ marks := by
  rintro _ ⟨⟩ hPlain
  exact hPlain h

/-- The first word of a type, after its point. It tells types apart but for arrays, whose items
follow. -/
def Ty.word : Ty → String
  | .int32 => "i32"
  | .boolean => "bool"
  | .string => "String"
  | .void => "V"
  | .object className => className
  | .array _ => "array"

/-- The text of a type behind its first word. Only an array has more to show. -/
def Ty.more : Ty → List Char
  | .array element => element.text.toList
  | _ => []

/-- A type is shown as a point, its first word and what comes behind that, which is the type of the items
of an array. -/
theorem Ty.text_toList (ty : Ty) : ty.text.toList = '.' :: (ty.word.toList ++ ty.more) := by
  cases ty with
  | object | array => simp [text, word, more]
  | _ => rfl

/-- The first word of a readable type holds no sign, so that it ends where a sign comes. -/
theorem Ty.word_plain {ty : Ty} (h : ty.isReadable = true) : ∀ c ∈ ty.word.toList, c ∉ marks := by
  cases ty with
  | object className => exact plain_of_isName (Bool.and_eq_true_iff.mp h).1
  | array element =>
      have hName : isName "array" = true := by decide
      exact plain_of_isName hName
  | _ => exact plain_of_isName (by decide)

/-- Behind the first word there is a sign or nothing, and the word does not go on. -/
theorem Ty.more_not_plain (ty : Ty) {r : List Char} (h : Ends r) :
    ∀ c ∈ (ty.more ++ r).head?, ¬c ∉ marks := by
  cases ty with
  | array element =>
      rw [more, text_toList]
      exact mark_not_plain (by decide)
  | _ => exact h.not_plain

/-- The first word tells types from each other, but for the elements of arrays. -/
theorem Ty.eq_of_word {a b : Ty} (ha : a.isReadable = true) (hb : b.isReadable = true)
    (h : a.word = b.word) : a = b ∨ ∃ e e', a = .array e ∧ b = .array e' := by
  have hFree {className : String} (hObject : (object className).isReadable = true) :
      className ∉ typeWords := of_decide_eq_true (Bool.and_eq_true_iff.mp hObject).2
  cases a with
  | object c =>
      have hNew := hFree ha
      cases b <;> simp_all [word, typeWords]
  | _ =>
      cases b with
      | object c =>
          have hNew := hFree hb
          simp_all [word, typeWords]
      | _ => simp_all [word]

/-- A readable type is told from its text, and so is where that text ends. Induction is on the arrays in
the type, each of which is a word of its own. -/
theorem Ty.text_unambiguous {a b : Ty} (ha : a.isReadable = true) (hb : b.isReadable = true)
    {r s : List Char} (hr : Ends r) (hs : Ends s) (h : a.text.toList ++ r = b.text.toList ++ s) :
    a = b ∧ r = s := by
  have hSplit {a b : Ty} (ha : a.isReadable = true) (hb : b.isReadable = true)
      (h : a.text.toList ++ r = b.text.toList ++ s) :
      a.word = b.word ∧ a.more ++ r = b.more ++ s := by
    rw [text_toList, text_toList, List.cons_append, List.cons_append, List.append_assoc,
      List.append_assoc] at h
    obtain ⟨hWord, hMore⟩ := span_unique (word_plain ha) (word_plain hb) (more_not_plain _ hr)
      (more_not_plain _ hs) (List.cons.inj h).2
    exact ⟨String.toList_inj.mp hWord, hMore⟩
  induction a generalizing b with
  | array e ih =>
      obtain ⟨hWord, hMore⟩ := hSplit ha hb h
      rcases eq_of_word ha hb hWord with rfl | ⟨_, e', ⟨⟩, rfl⟩
      · exact ⟨rfl, List.append_cancel_left hMore⟩
      · obtain ⟨rfl, hRest⟩ := ih ha (show e'.isReadable = true from hb) hMore
        exact ⟨rfl, hRest⟩
  | _ =>
      obtain ⟨hWord, hMore⟩ := hSplit ha hb h
      rcases eq_of_word ha hb hWord with rfl | ⟨_, _, ⟨⟩, _⟩
      exact ⟨rfl, List.append_cancel_left hMore⟩

/-- The first word of an operand: its name, its number or the word for the receiver. -/
def Operand.lead : Operand → List Char
  | .literal value _ => (toString value.toInt).toList
  | .variable name _ | .classRef name => name.toList
  | .element array _ _ => array.toList
  | .self _ => ['t', 'h', 'i', 's']

/-- The text of an operand behind its first word: its type, or the place of an item and then its type. -/
def Operand.more : Operand → List Char
  | .literal _ ty | .variable _ ty | .self ty => ty.text.toList
  | .element _ place ty => '[' :: (place.text.toList ++ ']' :: ty.text.toList)
  | .classRef _ => []

/-- An operand is shown as its first word and what comes behind that: its type, with a place before the
type for an item. -/
theorem Operand.text_toList (o : Operand) : o.text.toList = o.lead ++ o.more := by
  cases o with
  | self ty => simp [text, lead, more]
  | _ => simp [text, lead, more]

/-- The digits of a number, with a sign before them if it is negative. -/
theorem int_chars (n : Int) : ∀ c ∈ (toString n).toList, c.isDigit = true ∨ c = '-' := by
  intro c hc
  rw [Int.toString_eq_repr, Int.repr_eq_if] at hc
  split at hc
  · exact .inl (plain_of_mem_digits hc)
  · rw [String.toList_append, List.mem_append] at hc
    rcases hc with hSign | hDigits
    · exact .inr (List.mem_singleton.mp hSign)
    · exact .inl (plain_of_mem_digits hDigits)

theorem int_ne_nil (n : Int) : (toString n).toList ≠ [] := by
  rw [Int.toString_eq_repr, Int.repr_eq_if]
  split
  · rw [Nat.repr_eq_ofList_toDigits, String.toList_ofList]
    exact Nat.toDigits_ne_nil
  · rw [String.toList_append]
    exact List.append_ne_nil_of_left_ne_nil (by decide) _

theorem int_injective {m n : Int} (h : (toString m).toList = (toString n).toList) : m = n := by
  rw [String.toList_inj, Int.toString_eq_repr, Int.toString_eq_repr] at h
  exact Int.repr_injective h

variable {o : Operand}

/-- The first word holds no sign, be it a number, a name or the word for the receiver. -/
theorem Operand.Flat.lead_plain (h : o.Flat .readable) : ∀ c ∈ o.lead, c ∉ marks := by
  cases h with
  | simple hSimple =>
      cases hSimple with
      | literal value _ =>
          intro c hc
          rcases int_chars _ c hc with hDigit | rfl
          · exact not_mem_marks_of_isDigit hDigit
          · decide
      | «variable» hName _ | classRef hName => exact plain_of_isName hName
      | self =>
          rw [lead]
          exact plain_of_all (by decide)
  | element hArray _ _ => exact plain_of_isName hArray

theorem Operand.Flat.lead_ne_nil (h : o.Flat .readable) : o.lead ≠ [] := by
  cases h with
  | simple hSimple =>
      cases hSimple with
      | literal value _ => exact int_ne_nil _
      | «variable» hName _ | classRef hName => exact toList_ne_nil_of_isName hName
      | self => exact List.cons_ne_nil _ _
  | element hArray _ _ => exact toList_ne_nil_of_isName hArray

theorem Operand.more_not_plain (o : Operand) {r : List Char} (h : Ends r) :
    ∀ c ∈ (o.more ++ r).head?, ¬c ∉ marks := by
  cases o with
  | classRef => exact h.not_plain
  | element => exact mark_not_plain (by decide)
  | _ =>
      rw [more, Ty.text_toList]
      exact mark_not_plain (by decide)

/-- The forms of operands, as far as text can show them. -/
inductive OperandForm where
  | number
  | self
  | named
  | item
  | className
deriving DecidableEq

/-- The five forms, which decide what stands behind the first word. Each belongs to one constructor. -/
def Operand.form : Operand → OperandForm
  | .literal _ _ => .number
  | .self _ => .self
  | .variable _ _ => .named
  | .element _ _ _ => .item
  | .classRef _ => .className

/-- The form of an operand with the given first word and what stands behind it. A digit or a sign leads
to a number, and a bracket to an item. -/
def readForm (lead rest : List Char) : OperandForm :=
  if lead.head?.any fun c => c.isDigit || c = '-' then .number
  else if lead = ['t', 'h', 'i', 's'] then .self
  else if rest.head? = some '.' then .named
  else if rest.head? = some '[' then .item
  else .className

/-- Behind a name the next sign tells a variable from an item and from a class. -/
theorem readForm_name {s : String} (h : isName s = true) (rest : List Char) :
    readForm s.toList rest = if rest.head? = some '.' then .named
      else if rest.head? = some '[' then .item else .className := by
  obtain ⟨⟨-, hStart⟩, hThis⟩ := isName_iff.mp h
  have hLetter : (s.toList.head?.any fun c => c.isDigit || c = '-') = false := by
    rw [Option.any_eq_false]
    intro c hc
    simp [hStart c hc]
  have hOther : s.toList ≠ ['t', 'h', 'i', 's'] := fun hSame => hThis (String.toList_inj.mp hSame)
  rw [readForm, hLetter, if_neg Bool.false_ne_true, if_neg hOther]

/-- The form of an operand can be read off its text: numbers by their first sign, the receiver by its
word, and the rest by what follows. -/
theorem Operand.Flat.readForm_eq (h : o.Flat .readable) {r : List Char} (hr : Ends r) :
    readForm o.lead (o.more ++ r) = o.form := by
  cases h with
  | simple hSimple =>
      cases hSimple with
      | @literal value ty _ =>
          have hNumber : ((toString value.toInt).toList.head?.any fun c => c.isDigit || c = '-') = true := by
            obtain ⟨c, rest, hChars⟩ := List.exists_cons_of_ne_nil (int_ne_nil value.toInt)
            have hFirst := int_chars value.toInt c (hChars ▸ List.mem_cons_self)
            rw [hChars]
            simpa using hFirst
          exact if_pos hNumber
      | @«variable» name ty hName _ =>
          rw [lead, readForm_name hName, more, Ty.text_toList]
          rfl
      | self => rfl
      | @classRef name hName =>
          have hPoint : r.head? ≠ some '.' := fun hHead => (hr '.' hHead).2.1 rfl
          have hBracket : r.head? ≠ some '[' := fun hHead => (hr '[' hHead).2.2 rfl
          rw [lead, readForm_name hName, more, List.nil_append, if_neg hPoint, if_neg hBracket]
          rfl
  | @element array place ty hArray _ _ =>
      rw [lead, readForm_name hArray]
      rfl

/-- From equal texts the first words are told, then the forms, and then what comes behind the words can
be compared. -/
theorem Operand.text_split {a b : Operand} (ha : a.Flat .readable) (hb : b.Flat .readable)
    {r s : List Char} (hr : Ends r) (hs : Ends s) (h : a.text.toList ++ r = b.text.toList ++ s) :
    a.form = b.form ∧ a.lead = b.lead ∧ a.more ++ r = b.more ++ s := by
  rw [text_toList, text_toList, List.append_assoc, List.append_assoc] at h
  obtain ⟨hLead, hMore⟩ := span_unique ha.lead_plain hb.lead_plain (more_not_plain a hr)
    (more_not_plain b hs) h
  exact ⟨by rw [← ha.readForm_eq hr, ← hb.readForm_eq hs, hLead, hMore], hLead, hMore⟩

theorem Operand.Flat.tyWithin {v : Vocabulary} (h : o.Flat v) (hClass : o.form ≠ .className) :
    v.ty o.ty := by
  cases h with
  | simple hSimple =>
      cases hSimple with
      | literal _ hTy | «variable» _ hTy | self hTy => exact hTy
      | classRef => exact (hClass rfl).elim
  | element _ _ hTy => exact hTy

/-- The place of an item is no item itself, which keeps the induction on operands at one level. -/
theorem Operand.Flat.placeSimple {v : Vocabulary} {array : String} {place : Operand} {ty : Ty}
    (h : (Operand.element array place ty).Flat v) : place.Simple v := by
  cases h with
  | simple hSimple => cases hSimple
  | element _ hPlace _ => exact hPlace

/-- The text of an operand determines the operand and where its text ends, whatever may stand
behind it. -/
theorem Operand.text_unambiguous {a b : Operand} (ha : a.Flat .readable) (hb : b.Flat .readable)
    {r s : List Char} (hr : Ends r) (hs : Ends s) (h : a.text.toList ++ r = b.text.toList ++ s) :
    a = b ∧ r = s := by
  obtain ⟨hForm, hLead, hMore⟩ := text_split ha hb hr hs h
  induction a generalizing b r s with
  | literal value ty =>
      cases b with
      | literal value' ty' =>
          obtain rfl := Int32.toInt_inj.mp (int_injective hLead)
          obtain ⟨rfl, rfl⟩ := Ty.text_unambiguous (ha.tyWithin nofun) (hb.tyWithin nofun) hr hs hMore
          exact ⟨rfl, rfl⟩
      | _ => cases hForm
  | «variable» name ty =>
      cases b with
      | «variable» name' ty' =>
          obtain rfl := String.toList_inj.mp hLead
          obtain ⟨rfl, rfl⟩ := Ty.text_unambiguous (ha.tyWithin nofun) (hb.tyWithin nofun) hr hs hMore
          exact ⟨rfl, rfl⟩
      | _ => cases hForm
  | self ty =>
      cases b with
      | self ty' =>
          obtain ⟨rfl, rfl⟩ := Ty.text_unambiguous (ha.tyWithin nofun) (hb.tyWithin nofun) hr hs hMore
          exact ⟨rfl, rfl⟩
      | _ => cases hForm
  | classRef name =>
      cases b with
      | classRef name' =>
          obtain rfl := String.toList_inj.mp hLead
          exact ⟨rfl, hMore⟩
      | _ => cases hForm
  | element array place ty ih =>
      cases b with
      | element array' place' ty' =>
          obtain rfl := String.toList_inj.mp hLead
          simp only [more, List.cons_append, List.append_assoc, List.cons.injEq, true_and] at hMore
          have hClose {t : List Char} : Ends (']' :: t) := ends_cons (by decide)
          have hPlaceA : place.Flat .readable := .simple ha.placeSimple
          have hPlaceB : place'.Flat .readable := .simple hb.placeSimple
          obtain ⟨hPlaceForm, hPlaceLead, hPlaceMore⟩ := text_split hPlaceA hPlaceB hClose hClose hMore
          obtain ⟨rfl, hRest⟩ :=
            ih hPlaceA hPlaceB hClose hClose hMore hPlaceForm hPlaceLead hPlaceMore
          obtain ⟨rfl, rfl⟩ := Ty.text_unambiguous (ha.tyWithin nofun) (hb.tyWithin nofun) hr hs
            (List.cons.inj hRest).2
          exact ⟨rfl, rfl⟩
      | _ => cases hForm

end Code

end MiniJava
