import MiniJava.Proofs.Assembly.Members

/-! What a class refers to of itself is what its text declares: the fields that its code accesses have
lines of the same name and descriptor, and the methods that its code calls have headers with the same
parameters. -/

namespace MiniJava.Source

/-- Whether the method may be called with that many arguments. One that collects its trailing arguments
takes any number from the fixed ones on. -/
def MethodDecl.Takes (m : MethodDecl) (count : Nat) : Prop :=
  if (Signature.ofMethod m).isVarargs then m.parameters.length ≤ count + 1
  else m.parameters.length = count

instance (m : MethodDecl) (count : Nat) : Decidable (m.Takes count) :=
  inferInstanceAs (Decidable (if (Signature.ofMethod m).isVarargs then m.parameters.length ≤ count + 1
    else m.parameters.length = count))

/-- A call is one of the class itself if its receiver names the class, or if it names no class and has
this class for its type. -/
theorem callsOwnClass_iff {scope : Lowering.Scope} {receiver : Expr} :
    callsOwnClass scope receiver = true ↔
      receiverClass? scope receiver = some scope.symbols.className ∨
        receiverClass? scope receiver = none ∧ receiver.ty = .object scope.symbols.className := by
  unfold callsOwnClass
  cases receiverClass? scope receiver <;> simp

/-- A single argument that is an array is passed as it is to a method that collects its arguments. -/
theorem length_of_isOneArray {es : List Expr} (h : Lowering.isOneArray es = true) : es.length = 1 := by
  cases es with
  | nil => cases h
  | cons e rest =>
      cases rest with
      | nil => rfl
      | cons => cases h

/-- A call of a method of the class itself passes as many operands as the method has parameters. -/
theorem passedArguments_takes {scope : Lowering.Scope} {receiver : Expr} {m : MethodDecl}
    {arguments : List Expr} (hOwn : callsOwnClass scope receiver = true)
    (hFound : scope.symbols.method? m.name = some (.ofMethod m)) (hTakes : m.Takes arguments.length) :
    passedArguments scope receiver m.name arguments = m.parameters.length := by
  rw [passedArguments, leadingArguments?, if_pos hOwn, hFound]
  rw [MethodDecl.Takes] at hTakes
  cases hVarargs : (Signature.ofMethod m).isVarargs with
  | false =>
      rw [hVarargs] at hTakes
      simpa [Option.filter, hVarargs] using hTakes.symm
  | true =>
      rw [hVarargs, if_pos rfl] at hTakes
      have hSome : m.parameters ≠ [] := by
        intro hNone
        simp [Signature.isVarargs, Signature.ofMethod, hNone] at hVarargs
      have hPositive := List.length_pos_iff.mpr hSome
      have hLeading : ((some (Signature.ofMethod m)).filter (·.isVarargs)).map
          (·.parameters.length - 1) = some (m.parameters.length - 1) := by
        rw [Option.filter_some, if_pos hVarargs]
        rfl
      rw [hLeading]
      dsimp only
      split_ifs with hArray
      · have hOne := length_of_isOneArray hArray
        rw [List.length_drop] at hOne
        omega
      · omega

end MiniJava.Source

namespace MiniJava.Assembly

open Code (Operand)
open Source (MethodDecl Program Reference callsOwnClass callsOwnClass_iff receiverClass?)

/-- The text has the line, after another one. The first line of a text is left out, since no line of
interest is first. -/
def HasLine (text line : String) : Prop :=
  ∃ before after, text = before ++ "\n" ++ line ++ "\n" ++ after

theorem HasLine.append {text line : String} (h : HasLine text line) (before after : String) :
    HasLine (before ++ text ++ after) line := by
  obtain ⟨first, last, rfl⟩ := h
  exact ⟨before ++ first, last ++ after, by simp only [String.append_assoc]⟩

/-- Lines that are put one below another are lines of the text, in whatever order they come. -/
theorem hasLine_join {lines : List String} {line : String} (h : line ∈ lines) :
    HasLine ("\n" ++ String.join (lines.map (· ++ "\n"))) line := by
  induction lines with
  | nil => cases h
  | cons first rest ih =>
      rw [List.map_cons, String.join_cons]
      rcases List.mem_cons.mp h with rfl | hRest
      · refine ⟨"", String.join (rest.map (· ++ "\n")), ?_⟩
        simp only [String.append_assoc, String.empty_append]
      · have hLine := (ih hRest).append ("\n" ++ first) ""
        simpa only [String.append_assoc, String.append_empty] using hLine

/-- Each field of the class has a line of its own, with its name and its descriptor, in the text of the
fields. -/
theorem hasLine_field (scope : ClassScope) {field : Code.Variable}
    (h : field ∈ scope.unit.fields) :
    HasLine (fieldsText scope)
      (".field public '" ++ field.name ++ "' " ++ scope.descriptor field.ty) := by
  have hLines : fieldsText scope = "\n" ++ String.join ((scope.unit.fields.map fun field =>
      ".field public '" ++ field.name ++ "' " ++ scope.descriptor field.ty).map (· ++ "\n")) := by
    rw [fieldsText, if_neg (by simpa using List.ne_nil_of_mem h), List.map_map]
    rfl
  rw [hLines]
  exact hasLine_join (List.mem_map_of_mem h)

theorem header_text (indent : String) (block : Stack.Block) :
    ∃ below, block.text indent = ".method " ++ block.header ++ "\n" ++ below := by
  unfold Stack.Block.text
  simp only [String.append_assoc]
  exact ⟨_, rfl⟩

theorem hasLine_header {blocks : List Stack.Block} {block : Stack.Block} (indent : String)
    (h : block ∈ blocks) :
    HasLine (String.join (blocks.map fun block => "\n" ++ block.text indent))
      (".method " ++ block.header) := by
  induction blocks with
  | nil => cases h
  | cons first rest ih =>
      rw [List.map_cons, String.join_cons]
      rcases List.mem_cons.mp h with rfl | hRest
      · obtain ⟨below, hBelow⟩ := header_text indent block
        refine ⟨"", below ++ String.join (rest.map fun block => "\n" ++ block.text indent), ?_⟩
        simp only [hBelow, String.append_assoc, String.empty_append]
      · have hLine := (ih hRest).append ("\n" ++ first.text indent) ""
        rwa [String.append_empty] at hLine

/-- The text of a class that compiles: its name and that of the class above, its fields, the constructor
that is added if there is one, and the blocks of its methods. -/
theorem classText_ok {options : Options} {unit : Code.ClassUnit} {text : String} :
    classText options unit = .ok text ↔
      ∃ blocks, methodBlocks (.ofUnit options.defaultSuper unit) 0 unit.methods = .ok blocks ∧
        text = ".class public " ++ unit.name ++ "\n.super " ++
          (ClassScope.ofUnit options.defaultSuper unit).superName ++ "\n" ++
          fieldsText (.ofUnit options.defaultSuper unit) ++
          constructorText (.ofUnit options.defaultSuper unit) options.indent ++
          String.join (blocks.map fun block => "\n" ++ block.text options.indent) := by
  simp only [classText, except_bind_ok, except_pure_ok]

section Text

variable {options : Options} {unit : Code.ClassUnit} {text : String} {blocks : List Stack.Block}

/-- The fields have their lines in the text of the class as well, before everything about methods. -/
theorem classText_field (hText : classText options unit = .ok text) {field : Code.Variable}
    (h : field ∈ unit.fields) :
    HasLine text (".field public '" ++ field.name ++ "' " ++
      (ClassScope.ofUnit options.defaultSuper unit).descriptor field.ty) := by
  obtain ⟨blocks, -, rfl⟩ := classText_ok.mp hText
  have hLine := hasLine_field (.ofUnit options.defaultSuper unit) h
  rw [String.append_assoc]
  exact hLine.append _ _

/-- The methods have their lines in the text of the class, whichever blocks their code has led to. -/
theorem classText_header (hText : classText options unit = .ok text)
    (hBlocks : methodBlocks (.ofUnit options.defaultSuper unit) 0 unit.methods = .ok blocks)
    {block : Stack.Block} (h : block ∈ blocks) : HasLine text (".method " ++ block.header) := by
  obtain ⟨_, hSame, rfl⟩ := classText_ok.mp hText
  obtain rfl := Except.ok.inj (hSame.symm.trans hBlocks)
  have hLine := (hasLine_header options.indent h).append (".class public " ++ unit.name ++
    "\n.super " ++ (ClassScope.ofUnit options.defaultSuper unit).superName ++ "\n" ++
    fieldsText (.ofUnit options.defaultSuper unit) ++
    constructorText (.ofUnit options.defaultSuper unit) options.indent) ""
  rwa [String.append_empty] at hLine

end Text

/-- A call of a method of the class itself names the class, whatever its receiver is: the class by its
name, or an object of it. -/
theorem emits_ownCall {classScope : ClassScope} {scope : Lowering.Scope} {i : Stack.Instr}
    (hName : scope.symbols.className = classScope.unit.name)
    (hInt : scope.symbols.className ≠ "int") (hBoolean : scope.symbols.className ≠ "boolean")
    (hString : scope.symbols.className ≠ "String") (hVoid : scope.symbols.className ≠ "void")
    {receiver : Source.Expr} {method : String} {arguments : List Source.Expr}
    (hOwn : callsOwnClass scope receiver = true) (hDeclared : receiver.declaredTy scope = receiver.ty)
    (h : Emits classScope scope (.call receiver method arguments) i) :
    ∃ kind values ty, values.length = Source.passedArguments scope receiver method arguments ∧
      i = .invoke kind (classScope.methodRef classScope.unit.name method values ty) := by
  have hQualify : qualify classScope.unit classScope.unit.name = classScope.unit.name := if_pos rfl
  obtain ⟨values, ty, hValues, ⟨className, hStatic, rfl⟩ |
    ⟨_, className, hObject, hCarries, hClass, rfl⟩⟩ := emits_call h
  · rcases callsOwnClass_iff.mp hOwn with hSelf | ⟨hNone, -⟩
    · obtain rfl := Option.some.inj (hStatic.symm.trans hSelf)
      refine ⟨.static, values, ty, hValues, ?_⟩
      rw [hName, hQualify]
    · cases hNone.symm.trans hStatic
  · rcases callsOwnClass_iff.mp hOwn with hSelf | ⟨-, hTy⟩
    · cases hObject.symm.trans hSelf
    · rcases classOf_carries hName hInt hBoolean hVoid (hDeclared.trans hTy) hCarries hClass with
        rfl | ⟨hSame, -⟩
      · refine ⟨.virtual, values, ty, hValues, ?_⟩
        rw [hName, hQualify]
      · exact (hString hSame).elim

/-- A name has the meaning of a field only if the class declares a field of that name and type, and no
variable hides it. -/
theorem mem_fields {program : Program} {scope : Lowering.Scope}
    (hSymbols : scope.symbols = .ofProgram program) {name : String} {ty : Source.Ty}
    (h : Source.meaning scope name = .field ty) :
    ∃ d ∈ program.decl.fields, d.name = name ∧ d.ty = ty := by
  unfold Source.meaning at h
  cases hLookup : scope.method.lookup? name with
  | some d => simp [hLookup] at h
  | none =>
      cases hField : scope.symbols.field? name with
      | none =>
          simp only [hLookup, hField] at h
          split_ifs at h
      | some d =>
          simp only [hLookup, hField] at h
          rw [hSymbols] at hField
          exact ⟨d, List.mem_of_find?_eq_some hField, by simpa using List.find?_some hField,
            Source.Meaning.field.inj h⟩

/-- A method that the class declares is called by the parameters it declares, if it is passed as many
operands. -/
theorem methodRef_declared {program : Program} {unit : Code.ClassUnit} {withConstructor : Bool}
    (superName : String) (hUnit : Lowering.ofProgram withConstructor program = .ok unit)
    (hDistinct : (program.decl.methods.map (·.name)).Nodup) {target : MethodDecl}
    (hTarget : target ∈ program.decl.methods) {values : List Operand}
    (hValues : values.length = target.parameters.length) (ty : Code.Ty) :
    ((ClassScope.ofUnit superName unit).methodRef unit.name target.name values ty).parameters =
      target.parameters.map fun d => (ClassScope.ofUnit superName unit).descriptor (.ofSource d.ty) := by
  have hFound : (unit.method? target.name).map Code.Method.parameterTypes =
      some (target.parameters.map (.ofSource ·.ty)) := by
    rw [Lowering.method?_parameterTypes hUnit, Lowering.method?_eq hDistinct hTarget]
    rfl
  have hTypes : ClassScope.methodRef.parameterTypes (.ofUnit superName unit) unit.name target.name
      values = target.parameters.map (.ofSource ·.ty) := by
    have hOwn : (ClassScope.ofUnit superName unit).unit = unit := rfl
    rw [ClassScope.methodRef_parameterTypes, hOwn, if_pos rfl, hFound, Option.filter_some,
      if_pos (by simp [hValues]), Option.getD_some]
  rw [ClassScope.methodRef, hTypes, List.map_map]
  rfl

/-- The method that a call of the class itself refers to: the one of that name in the class, by the
parameters that its header shows. -/
def CallLinks (program : Program) (classScope : ClassScope) (text : String) (scope : Lowering.Scope)
    (r : Reference) (i : Stack.Instr) : Prop :=
  ∀ receiver method arguments, r = .call receiver method arguments →
    callsOwnClass scope receiver = true → receiver.declaredTy scope = receiver.ty →
    ∀ target ∈ program.decl.methods, target.name = method → target.Takes arguments.length →
      ∃ kind ref lowered, i = .invoke kind ref ∧ ref.className = program.decl.name ∧
        ref.name = method ∧
        ref.parameters = target.parameters.map (fun d => classScope.descriptor (.ofSource d.ty)) ∧
        lowered ∈ classScope.unit.methods ∧ lowered.name = method ∧
        HasLine text (".method " ++ lowered.modifiers ++ method ++ "(" ++ String.join ref.parameters ++
          ")" ++ classScope.descriptor (.ofSource target.returnType))

section

variable {program : Program} {withConstructor : Bool} {options : Options} {unit : Code.ClassUnit}
  {text : String} {blocks : List Stack.Block}
  (hUnit : Lowering.ofProgram withConstructor program = .ok unit)
  (hText : classText options unit = .ok text)
  (hBlocks : methodBlocks (.ofUnit options.defaultSuper unit) 0 unit.methods = .ok blocks)

include hUnit hText hBlocks

/-- The header of a method shows the types that the source gives to its parameters and its result. -/
theorem header_line {target : MethodDecl} (hTarget : target ∈ program.decl.methods) :
    ∃ lowered ∈ unit.methods, lowered.name = target.name ∧
      HasLine text (".method " ++ lowered.modifiers ++ target.name ++ "(" ++
        String.join (target.parameters.map fun d =>
          (ClassScope.ofUnit options.defaultSuper unit).descriptor (.ofSource d.ty)) ++ ")" ++
        (ClassScope.ofUnit options.defaultSuper unit).descriptor (.ofSource target.returnType)) := by
  obtain ⟨k, hPlace⟩ := List.mem_iff_getElem?.mp hTarget
  obtain ⟨block, lowered, hBlock, hLowered, hName, hParameters, hReturn, hHeader, -⟩ :=
    emits_method hUnit hBlocks hPlace
  refine ⟨lowered, List.mem_of_getElem? hLowered, hName, ?_⟩
  have hLine := classText_header hText hBlocks (List.mem_of_getElem? hBlock)
  have hTypes : lowered.parameterTypes = target.parameters.map (.ofSource ·.ty) := by
    rw [Code.Method.parameterTypes, hParameters, List.map_map]
    rfl
  rw [hHeader, methodHeader, hName, hTypes, hReturn, List.map_map] at hLine
  simpa only [String.append_assoc, Function.comp_def] using hLine

/-- Each call of a method of the class itself refers to one that has a line, if the program has such a
method for that number of arguments. That the class is named like no other type keeps its objects apart
from other values. -/
theorem call_links (hDistinct : (program.decl.methods.map (·.name)).Nodup)
    (hInt : program.decl.name ≠ "int") (hBoolean : program.decl.name ≠ "boolean")
    (hString : program.decl.name ≠ "String") (hVoid : program.decl.name ≠ "void")
    {scope : Lowering.Scope} (hSymbols : scope.symbols = .ofProgram program) {r : Reference}
    {i : Stack.Instr} (h : Emits (.ofUnit options.defaultSuper unit) scope r i) :
    CallLinks program (.ofUnit options.defaultSuper unit) text scope r i := by
  rintro receiver method arguments rfl hOwn hDeclared target hTarget rfl hTakes
  have hName : unit.name = program.decl.name := by
    obtain ⟨_, _, _, rfl⟩ := Lowering.ofProgram_ok.mp hUnit
    rfl
  have hClass : scope.symbols.className = program.decl.name := by rw [hSymbols]; rfl
  have hFound : scope.symbols.method? target.name = some (.ofMethod target) := by
    rw [hSymbols, Lowering.method?_eq hDistinct hTarget]
  obtain ⟨kind, values, ty, hValues, rfl⟩ := emits_ownCall (hClass.trans hName.symm)
    (hClass ▸ hInt) (hClass ▸ hBoolean) (hClass ▸ hString) (hClass ▸ hVoid) hOwn hDeclared h
  rw [Source.passedArguments_takes hOwn hFound hTakes] at hValues
  obtain ⟨lowered, hLowered, hLoweredName, hLine⟩ := header_line hUnit hText hBlocks hTarget
  have hParameters := methodRef_declared options.defaultSuper hUnit hDistinct hTarget
    hValues ty
  rw [← hParameters] at hLine
  exact ⟨kind, _, lowered, rfl, hName, rfl, hParameters, hLowered, hLoweredName, hLine⟩

omit hBlocks in
theorem field_line {d : Source.Declaration} (hd : d ∈ program.decl.fields) :
    HasLine text (".field public '" ++ d.name ++ "' " ++
      (ClassScope.ofUnit options.defaultSuper unit).descriptor (.ofSource d.ty)) := by
  have hFields : unit.fields = program.decl.fields.map Lowering.variableOf := by
    obtain ⟨_, _, _, rfl⟩ := Lowering.ofProgram_ok.mp hUnit
    rfl
  have hLine := classText_field hText (hFields ▸ List.mem_map_of_mem hd)
  rwa [Lowering.variableOf] at hLine

omit hBlocks in
/-- Only fields of the class itself are accessed, and each of them has its line, with the descriptor that
the access carries. -/
theorem access_links {scope : Lowering.Scope} (hSymbols : scope.symbols = .ofProgram program)
    {r : Reference} {i : Stack.Instr} (h : Emits (.ofUnit options.defaultSuper unit) scope r i)
    {ref : Stack.FieldRef} (hAccess : i = .getField ref ∨ i = .putField ref) :
    ref.className = program.decl.name ∧
      HasLine text (".field public '" ++ ref.name ++ "' " ++ ref.descriptor) := by
  obtain ⟨name, ty, hMeaning, rfl⟩ := emits_access h hAccess
  obtain ⟨d, hd, rfl, rfl⟩ := mem_fields hSymbols hMeaning
  refine ⟨?_, field_line hUnit hText hd⟩
  obtain ⟨_, _, _, rfl⟩ := Lowering.ofProgram_ok.mp hUnit
  rfl

end

/-- Members of the class itself that its methods refer to are there: a line of the text declares each
field that is accessed, and each method that is called by its name and a fitting number of arguments
has a header of the same parameters. -/
theorem members_link {program : Program} {withConstructor : Bool} {options : Options}
    {unit : Code.ClassUnit} {text : String} (hDistinct : (program.decl.methods.map (·.name)).Nodup)
    (hInt : program.decl.name ≠ "int") (hBoolean : program.decl.name ≠ "boolean")
    (hString : program.decl.name ≠ "String") (hVoid : program.decl.name ≠ "void")
    (hUnit : Lowering.ofProgram withConstructor program = .ok unit)
    (hText : classText options unit = .ok text) :
    ∃ blocks : List Stack.Block,
      methodBlocks (.ofUnit options.defaultSuper unit) 0 unit.methods = .ok blocks ∧
      blocks.length = program.decl.methods.length ∧
      ∀ (k : Nat) (m : MethodDecl), program.decl.methods[k]? = some m →
        ∃ block : Stack.Block, blocks[k]? = some block ∧ HasLine text (".method " ++ block.header) ∧
          (∀ ref, .getField ref ∈ block.body ∨ .putField ref ∈ block.body →
            ref.className = program.decl.name ∧
              HasLine text (".field public '" ++ ref.name ++ "' " ++ ref.descriptor)) ∧
          List.Forall₂
            (CallLinks program (.ofUnit options.defaultSuper unit) text (m.namedScope program))
            (m.references program) (Stack.members block.body) := by
  obtain ⟨blocks, hBlocks, -⟩ := classText_ok.mp hText
  refine ⟨blocks, hBlocks, blocks_length hUnit hBlocks, ?_⟩
  intro k m hMethod
  obtain ⟨block, _, hBlock, -, -, -, -, -, hEmits⟩ := emits_method hUnit hBlocks hMethod
  refine ⟨block, hBlock, classText_header hText hBlocks (List.mem_of_getElem? hBlock), ?_,
    hEmits.imp fun r i hReference => call_links hUnit hText hBlocks hDistinct hInt hBoolean hString
      hVoid rfl hReference⟩
  intro ref hAccess
  have hMember : ∃ i ∈ Stack.members block.body, i = .getField ref ∨ i = .putField ref := by
    rcases hAccess with hGet | hPut
    · exact ⟨_, List.mem_filter.mpr ⟨hGet, rfl⟩, .inl rfl⟩
    · exact ⟨_, List.mem_filter.mpr ⟨hPut, rfl⟩, .inr rfl⟩
  obtain ⟨i, hi, hAccess⟩ := hMember
  obtain ⟨r, -, hReference⟩ := exists_left_of_forall₂ hEmits hi
  exact access_links hUnit hText rfl hReference hAccess

namespace Log

/-- `void add(int... items) { size = 1; }`. -/
def add : MethodDecl where
  name := "add"
  isPublic := false
  isStatic := false
  returnType := .void
  parameters := [.varargs "items"]
  locals := []
  body := [.assign (.ident "size" .int) (.intLiteral 1)]

/-- `void start() { this.add(7); }`. -/
def start : MethodDecl where
  name := "start"
  isPublic := false
  isStatic := false
  returnType := .void
  parameters := []
  locals := []
  body := [.eval (.call (.self (.object "Log")) "add" [.intLiteral 7] .void)]

/-- A log with a field for its size and the two methods. -/
def program : Program := ⟨[], ⟨"Log", none, [.plain "size" .int], [add, start]⟩⟩

/-- The receiver of both methods. -/
def self : Operand := .self (.object "Log")

/-- The parameter that collects arguments is an array like any other, but for the flag of the method. -/
def loweredAdd : Code.Method where
  name := "add"
  isPublic := false
  isStatic := false
  isVarargs := true
  parameters := [⟨"items", .intArray⟩]
  returnType := .void
  body := [.putField self "size" .int32 (.int 1), .ret none .void]

/-- The argument is collected in an array. -/
def loweredStart : Code.Method where
  name := "start"
  isPublic := false
  isStatic := false
  isVarargs := false
  parameters := []
  returnType := .void
  body := [
    .assign (.variable "tmp0" .intArray) .intArray (Lowering.newIntArray (.int 1)),
    .assign (.element "tmp0" (.int 0) .int32) .int32 (.operand (.int 7)),
    .call .invokeVirtual self (some "add") [.variable "tmp0" .intArray] .void, .ret none .void]

def unit : Code.ClassUnit := ⟨"Log", none, [], [⟨"size", .int32⟩], [loweredAdd, loweredStart], true⟩

/-- Writing the field needs the receiver from slot 0. -/
def addBody : List Stack.Instr :=
  [.loadShort .reference 0, .iconst 1, .putField ⟨"Log", "size", "I"⟩, .ret]

/-- The array is made in slot 1 and filled with the one argument. The call comes last, with the
descriptor of an array. -/
def startBody : List Stack.Instr := [
  .iconst 1, .newIntArray, .storeShort .reference 1,
  .loadShort .reference 1, .iconst 0, .bipush 7, .arrayStore .int,
  .loadShort .reference 0, .loadShort .reference 1, .invoke .virtual ⟨"Log", "add", ["[I"], "V"⟩, .ret]

/-- The flag of the method shows in its header alone. -/
def blocks : List Stack.Block :=
  [⟨"varargs add([I)V", 2, 2, addBody⟩, ⟨"start()V", 3, 2, startBody⟩]

theorem lowered : Lowering.ofProgram true program = .ok unit := by decide +kernel

/-- An instance method with one variable, behind the receiver. -/
def frame (name : String) : Frame := ⟨(∅ : Std.HashMap String UInt16).insert name 1, 2⟩

theorem framed_add : Frame.ofMethod loweredAdd = .ok (frame "items") := by
  simp [loweredAdd, self, frame, Frame.ofMethod, Frame.empty, Frame.add, Code.Method.names,
    Code.Instr.names, Code.Operand.names, Operand.int, bind, Except.bind, pure, Except.pure, UInt16.size]

theorem framed_start : Frame.ofMethod loweredStart = .ok (frame "tmp0") := by
  simp [loweredStart, self, frame, Frame.ofMethod, Frame.empty, Frame.add, Code.Method.names,
    Code.Instr.names, Code.Operand.names, Lowering.newIntArray, Operand.int, bind, Except.bind, pure,
    Except.pure, UInt16.size]

theorem selected_add :
    (codeOf ⟨.ofUnit "java/lang/Object" unit, loweredAdd, frame "items"⟩ loweredAdd.body).run ⟨0, []⟩ =
      .ok (addBody, ⟨0, []⟩) := by
  rfl

def site : Site := ⟨.ofUnit "java/lang/Object" unit, loweredStart, frame "tmp0"⟩

theorem selected_start : (codeOf site loweredStart.body).run ⟨0, []⟩ = .ok (startBody, ⟨0, []⟩) := by
  have hSlot : site.slot "tmp0" = .ok 1 := by simp [Site.slot_ok, Frame.slot?, site, frame]
  have hArray : site.loadAll [.variable "tmp0" .intArray] = .ok [.loadShort .reference 1] :=
    Site.loadAll_cons_ok.mpr ⟨_, _, Site.load_variable_ok.mpr ⟨.reference, 1, rfl, hSlot, rfl⟩,
      Site.loadAll_nil_ok.mpr rfl, rfl⟩
  have hMethod : site.scope.methodRef "Log" "add" [.variable "tmp0" .intArray] .void =
      ⟨"Log", "add", ["[I"], "V"⟩ := by
    decide
  have hNew : (site.instr (.assign (.variable "tmp0" .intArray) .intArray
      (Lowering.newIntArray (.int 1)))).run ⟨0, []⟩ = .ok (startBody.take 3, ⟨0, []⟩) := by
    rw [Site.instr_assign]
    exact (Site.assign_variable_run rfl).mpr ⟨1, startBody.take 2, .reference, hSlot, rfl, rfl, rfl⟩
  have hItem : (site.instr (.assign (.element "tmp0" (.int 0) .int32) .int32
      (.operand (.int 7)))).run ⟨0, []⟩ = .ok ((startBody.drop 3).take 4, ⟨0, []⟩) := by
    rw [Site.instr_assign]
    exact Site.assign_element_run.mpr ⟨.int, 1, _, _, rfl, hSlot, rfl, rfl, rfl⟩
  have hCall : (site.instr (.call .invokeVirtual self (some "add") [.variable "tmp0" .intArray]
      .void)).run ⟨0, []⟩ = .ok ((startBody.drop 7).take 3, ⟨0, []⟩) := by
    refine Site.callStatement_run.mpr ⟨_, false, Site.call_invokeVirtual_run.mpr
      ⟨"Log", "add", _, rfl, rfl, rfl, Site.invocation_ok.mpr ⟨_, hArray, ?_, ?_⟩, rfl⟩, rfl⟩ <;>
      rw [hMethod] <;> rfl
  exact codeOf_cons_run.mpr ⟨_, _, _, hNew, codeOf_cons_run.mpr ⟨_, _, _, hItem, codeOf_cons_run.mpr
    ⟨_, _, _, hCall, codeOf_cons_run.mpr ⟨_, _, _, Site.instr_ret_run.mpr ⟨Site.ret_none_ok.mpr rfl, rfl⟩,
      codeOf_nil_run.mpr ⟨rfl, rfl⟩, rfl⟩, rfl⟩, rfl⟩, rfl⟩

theorem emitted : methodBlocks (.ofUnit "java/lang/Object" unit) 0 unit.methods = .ok blocks := by
  have hAdd : Stack.usage "add" addBody = .ok ⟨2, 0⟩ := rfl
  have hStart : Stack.usage "start" startBody = .ok ⟨3, 0⟩ := rfl
  refine methodBlocks_cons_ok.mpr ⟨_, _, _, methodBlock_ok.mpr ⟨frame "items", _, _, _, framed_add,
    selected_add, hAdd, rfl, rfl⟩, methodBlocks_cons_ok.mpr ⟨_, _, _, methodBlock_ok.mpr ⟨frame "tmp0", _,
      _, _, framed_start, selected_start, hStart, rfl, rfl⟩, rfl, rfl⟩, ?_⟩
  decide

end Log

/-- The call passes a number to a method that collects its arguments, and refers to it by an array. -/
theorem log_members_link :
    (Log.program.decl.methods.map (·.name)).Nodup ∧
      Lowering.ofProgram true Log.program = .ok Log.unit ∧
      ∃ text, classText .standard Log.unit = .ok text ∧ HasLine text ".field public 'size' I" ∧
        HasLine text ".method varargs add([I)V" := by
  have hDistinct : (Log.program.decl.methods.map (·.name)).Nodup := by decide
  obtain ⟨text, hText⟩ : ∃ text, classText .standard Log.unit = .ok text :=
    ⟨_, classText_ok.mpr ⟨_, Log.emitted, rfl⟩⟩
  obtain ⟨blocks, hBlocks, -, hEach⟩ := members_link hDistinct (by decide) (by decide) (by decide)
    (by decide) Log.lowered hText
  obtain rfl := Except.ok.inj (Log.emitted.symm.trans hBlocks)
  obtain ⟨block, hAdd, -, hFields, -⟩ := hEach 0 Log.add rfl
  obtain rfl := Option.some.inj hAdd
  obtain ⟨block, hStart, -, -, hCalls⟩ := hEach 1 Log.start rfl
  obtain rfl := Option.some.inj hStart
  have hReferences : Log.start.references Log.program =
      [.call (.self (.object "Log")) "add" [.intLiteral 7]] := rfl
  rw [hReferences] at hCalls
  obtain ⟨kind, ref, lowered, hInvoke, -, -, -, hLowered, hName, hLine⟩ :=
    (List.forall₂_cons.mp hCalls).1 _ _ _ rfl rfl rfl Log.add (by simp [Log.program]) rfl (by decide)
  obtain ⟨-, rfl⟩ := Stack.Instr.invoke.inj hInvoke
  obtain rfl : lowered = Log.loweredAdd := by
    rcases List.mem_pair.mp hLowered with rfl | rfl
    · rfl
    · exact absurd hName (by decide)
  exact ⟨hDistinct, Log.lowered, text, hText,
    (hFields ⟨"Log", "size", "I"⟩ (.inr (by decide))).2, hLine⟩

end MiniJava.Assembly
