import MiniJava.Proofs.Assembly.Descriptors

/-! The assembly text of an instruction determines it. An instruction is a word of its own and an operand;
a word ends where its operand begins, with a blank or a digit, and the word tells how the operand is
written. -/

namespace MiniJava.Stack

open Assembly

/-- Every name and every descriptor in the instruction is one. Numbers need no such condition, since all
of them can be written. -/
def Instr.Formed : Instr → Prop
  | .label name | .goto name | .ifZero _ name | .ifInts _ name => isSimpleName name = true
  | .new className => isClassName className = true
  | .getField field | .putField field => field.Formed
  | .invoke _ method => method.Formed
  | _ => True

/-- The signs with which operands begin. No word holds one, so the first of them in a text shows where
the word ends. -/
def isBreak (c : Char) : Bool := c.isDigit || c = ' '

/-- An instruction that is no label, without its operand. Kinds, operators and comparisons are part of
it, as they are part of its word. -/
inductive Opcode where
  | iconstM1
  | iconst
  | bipush
  | sipush
  | ldc
  | loadShort (kind : Kind)
  | load (kind : Kind)
  | storeShort (kind : Kind)
  | store (kind : Kind)
  | arrayLoad (kind : ElementKind)
  | arrayStore (kind : ElementKind)
  | newIntArray
  | arrayLength
  | new
  | getField
  | putField
  | dup
  | pop
  | arithmetic (op : Arithmetic)
  | ifZero (comparison : Comparison)
  | ifInts (comparison : Comparison)
  | goto
  | invoke (kind : InvokeKind)
  | retValue (kind : Kind)
  | ret
deriving DecidableEq

/-- What stands in the text up to the operand. The `1` of `iconst_m1` is one, so that no word holds a
digit. -/
def Opcode.word : Opcode → String
  | .iconstM1 => "iconst_m"
  | .iconst => "iconst_"
  | .bipush => "bipush"
  | .sipush => "sipush"
  | .ldc => "ldc"
  | .loadShort kind => kind.letter ++ "load_"
  | .load kind => kind.letter ++ "load"
  | .storeShort kind => kind.letter ++ "store_"
  | .store kind => kind.letter ++ "store"
  | .arrayLoad kind => kind.letter ++ "aload"
  | .arrayStore kind => kind.letter ++ "astore"
  | .newIntArray => "newarray"
  | .arrayLength => "arraylength"
  | .new => "new"
  | .getField => "getfield"
  | .putField => "putfield"
  | .dup => "dup"
  | .pop => "pop"
  | .arithmetic op => op.text
  | .ifZero comparison => "if" ++ comparison.text
  | .ifInts comparison => "if_icmp" ++ comparison.text
  | .goto => "goto"
  | .invoke kind => kind.text
  | .retValue kind => kind.letter ++ "return"
  | .ret => "return"

namespace Opcode

/-- All opcodes, listed so that a property of their words can be checked over the list. There are
finitely many, since operands are left out. -/
def all : List Opcode :=
  let kinds := [.int, .reference]
  let elementKinds := [.int, .byte, .reference]
  let comparisons := [.ne, .lt, .ge, .gt, .le]
  [iconstM1, iconst, bipush, sipush, ldc, newIntArray, arrayLength, new, getField, putField, dup, pop,
    goto, ret] ++ kinds.flatMap (fun kind => [loadShort kind, load kind, storeShort kind, store kind,
    retValue kind]) ++ elementKinds.flatMap (fun kind => [arrayLoad kind, arrayStore kind]) ++
    [.add, .sub, .mul, .div, .and, .xor].map arithmetic ++
    comparisons.flatMap (fun comparison => [ifZero comparison, ifInts comparison]) ++
    [.virtual, .static, .special].map invoke

theorem mem_all (op : Opcode) : op ∈ all := by
  cases op with
  | loadShort kind | load kind | storeShort kind | store kind | retValue kind => cases kind <;> decide
  | arrayLoad kind | arrayStore kind => cases kind <;> decide
  | arithmetic op => cases op <;> decide
  | ifZero comparison | ifInts comparison => cases comparison <;> decide
  | invoke kind => cases kind <;> decide
  | _ => decide

/-- No two instructions have the same word. This is checked over the list of all opcodes. -/
theorem word_injective {op op' : Opcode} (h : op.word = op'.word) : op = op' := by
  have hFound : ∀ op ∈ all, all.find? (fun other => other.word = op.word) = some op := by decide
  have hFirst := hFound op (mem_all op)
  have hSecond := hFound op' (mem_all op')
  rw [h, hSecond] at hFirst
  exact (Option.some.inj hFirst).symm

/-- No word holds a blank, a digit or a colon, and so a word ends where the operand begins, or with the
text. -/
theorem word_plain (op : Opcode) : ∀ c ∈ op.word.toList, isBreak c = false ∧ c ≠ ':' := by
  have hAll : (all.all fun op => op.word.toList.all fun c => !isBreak c && c ≠ ':') = true := by
    decide
  have hWord := List.all_eq_true.mp hAll op (mem_all op)
  simpa using hWord

end Opcode

/-- A way in which operands are written behind a word, such that the word can be told from them and they
from each other. -/
structure Form where
  Operand : Type
  chars : Operand → List Char
  Formed : Operand → Prop
  begins : ∀ a, ∀ c ∈ (chars a).head?, isBreak c = true
  no_colon : ∀ a, Formed a → ':' ∉ chars a
  injective : ∀ a b, Formed a → Formed b → chars a = chars b → a = b

namespace Form

/-- The same text in every instruction of the opcode, which has no operand to show. -/
def fixed (text : List Char) (hBegins : text.head?.all isBreak = true) (hColon : ':' ∉ text) :
    Form where
  Operand := Unit
  chars _ := text
  Formed _ := True
  begins _ c hc := (Option.all_eq_true _ _).mp hBegins c hc
  no_colon _ _ := hColon
  injective _ _ _ _ _ := rfl

theorem no_colon_in_digits (n : Nat) : ':' ∉ (toString n).toList :=
  fun hColon => Bool.false_ne_true (Code.plain_of_mem_digits hColon)

theorem digits_injective {m n : Nat} (h : (toString m).toList = (toString n).toList) : m = n :=
  Nat.repr_injective (String.toList_inj.mp h)

/-- Digits, right behind the word. They are those of a byte, and no blank parts them from the word. -/
def digits : Form where
  Operand := UInt8
  chars value := (toString value.toNat).toList
  Formed _ := True
  begins _ _ hc :=
    Bool.or_eq_true_iff.mpr (.inl (Code.plain_of_mem_digits (List.mem_of_mem_head? hc)))
  no_colon _ _ := no_colon_in_digits _
  injective _ _ _ _ h := UInt8.toNat_inj.mp (digits_injective h)

/-- An operand behind a blank. Its own text must not hold a colon and must determine it. -/
def spaced {α : Type} (text : α → List Char) (Formed : α → Prop)
    (hColon : ∀ a, Formed a → ':' ∉ text a)
    (hText : ∀ a b, Formed a → Formed b → text a = text b → a = b) : Form where
  Operand := α
  chars a := ' ' :: text a
  Formed := Formed
  begins _ _ hc := Option.some.inj hc ▸ rfl
  no_colon a ha := List.not_mem_cons_of_ne_of_not_mem (by decide) (hColon a ha)
  injective a b ha hb h := hText a b ha hb (List.cons.inj h).2

/-- A signed number behind a blank. It is read back from its digits and its sign, whichever width
it has. -/
def number {α : Type} (toInt : α → Int) (hInt : ∀ a b, toInt a = toInt b → a = b) : Form :=
  spaced (fun a => (toString (toInt a)).toList) (fun _ => True)
    (fun a _ hMem => by rcases Code.int_chars _ _ hMem with h | h <;> cases h)
    (fun a b _ _ h => hInt a b (Code.int_injective h))

/-- The number of a slot, behind a blank as other operands are. -/
def slot : Form :=
  spaced (fun slot : UInt16 => (toString slot.toNat).toList) (fun _ => True)
    (fun _ _ => no_colon_in_digits _) (fun _ _ _ _ h => UInt16.toNat_inj.mp (digits_injective h))

/-- A name behind a blank, of a class or of a label. -/
def name (Formed : String → Bool) (hColon : ∀ s, Formed s = true → ':' ∉ s.toList) : Form :=
  spaced String.toList (Formed · = true) hColon (fun _ _ _ _ => String.toList_inj.mp)

/-- A reference to a field behind a blank: class, name and descriptor, of which each is told from the
next. -/
def field : Form :=
  spaced (fun field : FieldRef => field.text.toList) FieldRef.Formed (fun _ => FieldRef.Formed.no_colon)
    (fun _ _ => FieldRef.Formed.text_injective)

/-- A reference to a method behind a blank. The bracket of its descriptor ends the name. -/
def method : Form :=
  spaced (fun method : MethodRef => method.text.toList) MethodRef.Formed
    (fun _ => MethodRef.Formed.no_colon) (fun _ _ => MethodRef.Formed.text_injective)

end Form

namespace Opcode

/-- How each opcode has its operand written. Short forms have digits right behind the word, and arrays of
integers name their type. -/
def form : Opcode → Form
  | .iconstM1 => .fixed ['1'] (by decide) (by decide)
  | .iconst | .loadShort _ | .storeShort _ => .digits
  | .bipush => .number Int8.toInt fun _ _ => Int8.toInt_inj.mp
  | .sipush => .number Int16.toInt fun _ _ => Int16.toInt_inj.mp
  | .ldc => .number Int32.toInt fun _ _ => Int32.toInt_inj.mp
  | .load _ | .store _ => .slot
  | .newIntArray => .fixed [' ', 'i', 'n', 't'] (by decide) (by decide)
  | .new => .name isClassName fun _ h => not_mem_of_isClassName h (by decide) (by decide)
  | .getField | .putField => .field
  | .ifZero _ | .ifInts _ | .goto =>
      .name isSimpleName fun _ h => not_mem_of_isSimpleName h (by decide)
  | .invoke _ => .method
  | .arrayLoad _ | .arrayStore _ | .arrayLength | .dup | .pop | .arithmetic _ | .retValue _ | .ret =>
      .fixed [] (by decide) (by decide)

/-- The instruction with its operand. Every instruction that is no label is made in this way, and in one
way only. -/
def instr : (op : Opcode) → op.form.Operand → Instr
  | .iconstM1, _ => .iconstM1
  | .iconst, value => .iconst value
  | .bipush, value => .bipush value
  | .sipush, value => .sipush value
  | .ldc, value => .ldc value
  | .loadShort kind, slot => .loadShort kind slot
  | .load kind, slot => .load kind slot
  | .storeShort kind, slot => .storeShort kind slot
  | .store kind, slot => .store kind slot
  | .arrayLoad kind, _ => .arrayLoad kind
  | .arrayStore kind, _ => .arrayStore kind
  | .newIntArray, _ => .newIntArray
  | .arrayLength, _ => .arrayLength
  | .new, className => .new className
  | .getField, field => .getField field
  | .putField, field => .putField field
  | .dup, _ => .dup
  | .pop, _ => .pop
  | .arithmetic op, _ => .arithmetic op
  | .ifZero comparison, target => .ifZero comparison target
  | .ifInts comparison, target => .ifInts comparison target
  | .goto, target => .goto target
  | .invoke kind, method => .invoke kind method
  | .retValue kind, _ => .retValue kind
  | .ret, _ => .ret

/-- Every instruction but a label is an opcode with an operand that suits it. Its text is then the word
and the text of the operand. -/
theorem exists_instr {i : Instr} (h : i.isLabel = false) :
    ∃ (op : Opcode) (a : op.form.Operand), i = op.instr a := by
  cases i with
  | label => cases h
  | iconstM1 => exact ⟨.iconstM1, (), rfl⟩
  | iconst value => exact ⟨.iconst, value, rfl⟩
  | bipush value => exact ⟨.bipush, value, rfl⟩
  | sipush value => exact ⟨.sipush, value, rfl⟩
  | ldc value => exact ⟨.ldc, value, rfl⟩
  | loadShort kind slot => exact ⟨.loadShort kind, slot, rfl⟩
  | load kind slot => exact ⟨.load kind, slot, rfl⟩
  | storeShort kind slot => exact ⟨.storeShort kind, slot, rfl⟩
  | store kind slot => exact ⟨.store kind, slot, rfl⟩
  | arrayLoad kind => exact ⟨.arrayLoad kind, (), rfl⟩
  | arrayStore kind => exact ⟨.arrayStore kind, (), rfl⟩
  | newIntArray => exact ⟨.newIntArray, (), rfl⟩
  | arrayLength => exact ⟨.arrayLength, (), rfl⟩
  | new className => exact ⟨.new, className, rfl⟩
  | getField field => exact ⟨.getField, field, rfl⟩
  | putField field => exact ⟨.putField, field, rfl⟩
  | dup => exact ⟨.dup, (), rfl⟩
  | pop => exact ⟨.pop, (), rfl⟩
  | arithmetic op => exact ⟨.arithmetic op, (), rfl⟩
  | ifZero comparison target => exact ⟨.ifZero comparison, target, rfl⟩
  | ifInts comparison target => exact ⟨.ifInts comparison, target, rfl⟩
  | goto target => exact ⟨.goto, target, rfl⟩
  | invoke kind method => exact ⟨.invoke kind, method, rfl⟩
  | retValue kind => exact ⟨.retValue kind, (), rfl⟩
  | ret => exact ⟨.ret, (), rfl⟩

-- Only the theorem that follows unfolds these.
attribute [local simp] instr Instr.text word form Form.fixed Form.digits Form.slot Form.number
  Form.name Form.field Form.method Form.spaced

/-- The text of an instruction is its word and then its operand, with nothing lost between them. -/
theorem text_instr (op : Opcode) (a : op.form.Operand) :
    (op.instr a).text.toList = op.word.toList ++ op.form.chars a := by
  cases op with
  | new | ifZero | ifInts | goto =>
      -- The operand is known for a text only through its form.
      change String at a
      simp
  | _ => simp

/-- An instruction that is formed has an operand that is formed, in the sense of the form of its
opcode. -/
theorem formed_instr {op : Opcode} {a : op.form.Operand} (h : (op.instr a).Formed) :
    op.form.Formed a := by
  cases op <;> exact h

end Opcode

/-- Only the text of a label holds a colon, for neither words nor operands do. -/
theorem no_colon_of_not_label {i : Instr} (h : i.Formed) (hLabel : i.isLabel = false) :
    ':' ∉ i.text.toList := by
  obtain ⟨op, a, rfl⟩ := Opcode.exists_instr hLabel
  rw [op.text_instr, List.mem_append]
  rintro (hWord | hOperand)
  · exact (op.word_plain ':' hWord).2 rfl
  · exact op.form.no_colon a (Opcode.formed_instr h) hOperand

theorem colon_of_label {i : Instr} (hLabel : i.isLabel = true) : ':' ∈ i.text.toList := by
  cases i with
  | label name => simp [Instr.text]
  | _ => cases hLabel

/-- The word ends where its operand begins, so that texts that are the same have the same word; the word
tells how the operand is written, and so that determines the operand. -/
theorem eq_of_not_label {i j : Instr} (hi : i.Formed) (hj : j.Formed) (hLabel : i.isLabel = false)
    (hLabel' : j.isLabel = false) (h : i.text = j.text) : i = j := by
  obtain ⟨op, a, rfl⟩ := Opcode.exists_instr hLabel
  obtain ⟨op', b, rfl⟩ := Opcode.exists_instr hLabel'
  have hWord (op : Opcode) : ∀ c ∈ op.word.toList, isBreak c = false :=
    fun c hc => (op.word_plain c hc).1
  have hOperand (op : Opcode) (a : op.form.Operand) :
      ∀ c ∈ (op.form.chars a).head?, ¬isBreak c = false := by
    intro c hc hPlain
    exact Bool.false_ne_true (hPlain.symm.trans (op.form.begins a c hc))
  have hText := congrArg String.toList h
  rw [op.text_instr, op'.text_instr] at hText
  obtain ⟨hSame, hRest⟩ := span_unique (hWord op) (hWord op') (hOperand op a) (hOperand op' b) hText
  obtain rfl := Opcode.word_injective (String.toList_inj.mp hSame)
  rw [op.form.injective a b (Opcode.formed_instr hi) (Opcode.formed_instr hj) hRest]

/-- Labels with the same text have the same name, since all that is added is the colon. -/
theorem eq_of_label {i j : Instr} (hLabel : i.isLabel = true) (hLabel' : j.isLabel = true)
    (h : i.text = j.text) : i = j := by
  cases i with
  | label name =>
      cases j with
      | label name' => exact congrArg Instr.label ((String.append_left_inj ":").mp h)
      | _ => cases hLabel'
  | _ => cases hLabel

/-- Instructions with the same text are the same, with every name and every descriptor in them, and methods
with the same descriptor have the same parameters and the same result. -/
theorem instrText_injective :
    (∀ i j : Instr, i.Formed → j.Formed → i.text = j.text → i = j) ∧
      ∀ method method' : MethodRef, (∀ p ∈ method.parameters, IsDescriptor p) →
        (∀ p ∈ method'.parameters, IsDescriptor p) → method.descriptor = method'.descriptor →
          method.parameters = method'.parameters ∧ method.result = method'.result := by
  refine ⟨fun i j hi hj h => ?_, fun _ _ => MethodRef.descriptor_unambiguous⟩
  cases hLabel : i.isLabel with
  | true =>
      cases hLabel' : j.isLabel with
      | true => exact eq_of_label hLabel hLabel' h
      | false => exact absurd (h ▸ colon_of_label hLabel) (no_colon_of_not_label hj hLabel')
  | false =>
      cases hLabel' : j.isLabel with
      | true => exact absurd (h ▸ colon_of_label hLabel') (no_colon_of_not_label hi hLabel)
      | false => exact eq_of_not_label hi hj hLabel hLabel' h

namespace ListOf

/-- A class that imports `java.util.List`. -/
def scope : ClassScope :=
  .ofUnit "java/lang/Object" { Code.ClassUnit.empty "Foo" with imports := ["java.util.List"] }

/-- What a call `List.of(1, xs)` with a `List` for its result refers to. -/
def called : MethodRef :=
  scope.methodRef (qualify scope.unit "List") "of" [.int 1, .variable "xs" .intArray] (.object "List")

/-- The same method by its full name, with the descriptors written out. -/
def spelt : MethodRef :=
  ⟨String.intercalate "/" ["java", "util", "List"], "of", ["I", "[I"], "Ljava/util/List;"⟩

theorem qualify_list : isClassName (qualify scope.unit "List") = true :=
  isClassName_qualify (by decide) (by decide)

/-- The reference of the call is formed; its parameters are described by the types of the arguments. -/
theorem called_formed : called.Formed where
  className := qualify_list
  name := show isSimpleName "of" = true by decide
  parameters := List.forall_mem_cons.mpr ⟨⟨scope, .int32, nofun, rfl⟩,
    List.forall_mem_singleton.mpr ⟨scope, .intArray, nofun, rfl⟩⟩
  result := ⟨scope, .object "List", fun _ hName => Option.some.inj hName ▸ qualify_list, rfl⟩

/-- The reference that is written out is formed too. Each of its descriptors is one that the class
spells. -/
theorem spelt_formed : spelt.Formed where
  className := isClassName_intercalate (by decide)
  name := show isSimpleName "of" = true by decide
  parameters := called_formed.parameters
  result := called_formed.result

end ListOf

/-- The call and the method spelt out have the same text, and so they are the same in their parameters
and their result too. -/
theorem listOf_instrText_injective :
    Instr.Formed (.invoke .static ListOf.called) ∧ Instr.Formed (.invoke .static ListOf.spelt) ∧
      (Instr.invoke .static ListOf.called).text = (Instr.invoke .static ListOf.spelt).text ∧
      Instr.invoke .static ListOf.called = .invoke .static ListOf.spelt ∧
        ListOf.called.parameters = ["I", "[I"] ∧ ListOf.called.result = "Ljava/util/List;" :=
  ⟨ListOf.called_formed, ListOf.spelt_formed, by decide,
    instrText_injective.1 _ _ ListOf.called_formed ListOf.spelt_formed (by decide),
    instrText_injective.2 ListOf.called ListOf.spelt ListOf.called_formed.parameters
      ListOf.spelt_formed.parameters (by decide)⟩

end MiniJava.Stack
