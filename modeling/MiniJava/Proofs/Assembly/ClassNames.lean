import MiniJava.Proofs.Assembly.Linking

/-! Whatever refers to a class of the program does so by one internal name. Strings are the exception:
where one is declared the class library's name stands for them, and where one is made or its class is
named they are a class like any other. -/

namespace MiniJava.Assembly

open Code (Operand Ty)
open Source (MethodDecl Program Reference meaning receiverClass?)

/-- The descriptor of the objects of a class, whose name is spelt as class files do. -/
def objectDescriptor (className : String) : String := "L" ++ className ++ ";"

/-- Where a reference is to a class or to an object of it, the instruction that makes it has the name
of the class. -/
def NamesClass (scope : Lowering.Scope) (n className : String) : Reference → Stack.Instr → Prop
  | .new other, i => other = n → i = .new className
  | .construct other, i => other = n → i = .invoke .special ⟨className, "<init>", [], "V"⟩
  | .call receiver _ _, i =>
      (receiverClass? scope receiver = some n →
        ∃ method, i = .invoke .static method ∧ method.className = className) ∧
      (receiverClass? scope receiver = none → receiver.declaredTy scope = .object n →
        ∃ method, i = .invoke .virtual method ∧ method.className = className)
  | .read field, i => meaning scope field = .field (.object n) →
      ∃ ref, i = .getField ref ∧ ref.descriptor = objectDescriptor className
  | .write field, i => meaning scope field = .field (.object n) →
      ∃ ref, i = .putField ref ∧ ref.descriptor = objectDescriptor className

/-- Whether everything in a class that refers to the class `n` does so by the name `className`: the lines
of its fields, the headers of its methods, and their code. -/
structure NamedThroughout (program : Program) (classScope : ClassScope) (text : String)
    (blocks : List Stack.Block) (n className : String) : Prop where
  descriptor : classScope.descriptor (.ofSource (.object n)) = objectDescriptor className
  /-- Fields have the descriptors of their declared types. -/
  fields : ∀ d ∈ program.decl.fields,
    HasLine text (".field public '" ++ d.name ++ "' " ++ classScope.descriptor (.ofSource d.ty))
  /-- Parameters and results have the descriptors of their declared types. -/
  headers : ∀ m ∈ program.decl.methods, ∃ lowered ∈ classScope.unit.methods, lowered.name = m.name ∧
    HasLine text (".method " ++ lowered.modifiers ++ m.name ++ "(" ++
      String.join (m.parameters.map fun d => classScope.descriptor (.ofSource d.ty)) ++ ")" ++
      classScope.descriptor (.ofSource m.returnType))
  bodies : ∀ (k : Nat) (m : MethodDecl), program.decl.methods[k]? = some m →
    ∃ block : Stack.Block, blocks[k]? = some block ∧
      List.Forall₂ (NamesClass (m.namedScope program) n className) (m.references program)
        (Stack.members block.body)

/-- A declared class type keeps the name of the class, but for strings, which have a type of their own.
The three names of other types are excluded, since no class can have them. -/
theorem ofSource_object {n : String} (hInt : n ≠ "int") (hBoolean : n ≠ "boolean")
    (hVoid : n ≠ "void") :
    Ty.ofSource (.object n) = if n = "String" then .string else .object n := by
  simp [Ty.ofSource, Source.Ty.object, Ty.ofName, hInt, hBoolean, hVoid]

section

variable {classScope : ClassScope} {n : String} (hInt : n ≠ "int") (hBoolean : n ≠ "boolean")
  (hVoid : n ≠ "void") (hString : n = "String" → qualify classScope.unit n = stringClass)

include hInt hBoolean hVoid hString

/-- A declared class has the descriptor of the internal name that imports give it. For strings this is
where the name of the class library comes in. -/
theorem descriptor_object :
    classScope.descriptor (.ofSource (.object n)) = objectDescriptor (qualify classScope.unit n) := by
  rw [ofSource_object hInt hBoolean hVoid]
  split_ifs with hn
  · rw [hString hn]
    rfl
  · rfl

/-- Where the code refers to a class, it does so by the name that imports give to that class, whichever
of the instructions it is. -/
theorem namesClass_of_emits {scope : Lowering.Scope}
    (hName : scope.symbols.className = classScope.unit.name) {r : Reference} {i : Stack.Instr}
    (h : Emits classScope scope r i) : NamesClass scope n (qualify classScope.unit n) r i := by
  cases r with
  | new other =>
      rintro rfl
      exact emits_new h
  | construct other =>
      rintro rfl
      exact emits_construct h
  | read field =>
      intro hField
      obtain ⟨ty, hMeaning, rfl⟩ := emits_read h
      obtain rfl := Source.Meaning.field.inj (hMeaning.symm.trans hField)
      exact ⟨_, rfl, descriptor_object hInt hBoolean hVoid hString⟩
  | write field =>
      intro hField
      obtain ⟨ty, hMeaning, rfl⟩ := emits_write h
      obtain rfl := Source.Meaning.field.inj (hMeaning.symm.trans hField)
      exact ⟨_, rfl, descriptor_object hInt hBoolean hVoid hString⟩
  | call receiver method arguments =>
      obtain ⟨_, _, -, ⟨_, hStatic, rfl⟩ | ⟨_, _, hObject, hCarries, hClass, rfl⟩⟩ := emits_call h
      · refine ⟨fun hReceiver => ?_, fun hNone => by cases hNone.symm.trans hStatic⟩
        obtain rfl := Option.some.inj (hReceiver.symm.trans hStatic)
        exact ⟨_, rfl, rfl⟩
      · refine ⟨fun hReceiver => (by cases hObject.symm.trans hReceiver), fun _ hTy => ⟨_, rfl, ?_⟩⟩
        rcases classOf_carries hName hInt hBoolean hVoid hTy hCarries hClass with hSame | ⟨hn, hSame⟩
        · exact hSame
        · exact hSame.trans (hString hn).symm

end

/-- A class has one internal name. For strings this takes that the class whose name they have is the
one of the class library. -/
theorem named_throughout {program : Program} {withConstructor : Bool} {options : Options}
    {unit : Code.ClassUnit} {text n : String}
    (hUnit : Lowering.ofProgram withConstructor program = .ok unit)
    (hText : classText options unit = .ok text) (hInt : n ≠ "int") (hBoolean : n ≠ "boolean")
    (hVoid : n ≠ "void") (hString : n = "String" → qualify unit n = stringClass) :
    ∃ blocks, methodBlocks (.ofUnit options.defaultSuper unit) 0 unit.methods = .ok blocks ∧
      NamedThroughout program (.ofUnit options.defaultSuper unit) text blocks n (qualify unit n) := by
  obtain ⟨blocks, hBlocks, -⟩ := classText_ok.mp hText
  have hName : program.decl.name = unit.name := by
    obtain ⟨_, _, _, rfl⟩ := Lowering.ofProgram_ok.mp hUnit
    rfl
  refine ⟨blocks, hBlocks, ?_⟩
  exact {
    descriptor := descriptor_object hInt hBoolean hVoid hString
    fields d hd := field_line hUnit hText hd
    headers m hm := header_line hUnit hText hBlocks hm
    bodies k m hMethod := by
      obtain ⟨block, _, hBlock, -, -, -, -, -, hEmits⟩ := emits_method hUnit hBlocks hMethod
      exact ⟨block, hBlock, hEmits.imp fun r i hReference =>
        namesClass_of_emits hInt hBoolean hVoid hString hName hReference⟩ }

namespace Maker

/-- `n make() { return new n(); }`. -/
def source (n : String) : MethodDecl where
  name := "make"
  isPublic := false
  isStatic := false
  returnType := .object n
  parameters := []
  locals := []
  body := [.ret (some (.newObject n))]

/-- A class with the one method `make`, for any imports and any class of which it makes an object. -/
def program (imports : List (List String)) (n : String) : Program :=
  ⟨imports, ⟨"Maker", none, [], [source n]⟩⟩

/-- The object is made in the first temporary and returned from there. -/
def lowered (n : String) : Code.Method where
  name := "make"
  isPublic := false
  isStatic := false
  isVarargs := false
  parameters := []
  returnType := .ofSource (.object n)
  body := Lowering.newObjectCode "tmp0" n ++
    [.ret (some (.variable "tmp0" (.object n))) (.ofSource (.object n))]

def unit (imports : List String) (n : String) : Code.ClassUnit :=
  ⟨"Maker", none, imports, [], [lowered n], true⟩

/-- The code by the internal name of the class. The object is made, stored and constructed, and then
loaded to be returned. -/
def body (className : String) : List Stack.Instr := [
  .new className, .dup, .storeShort .reference 1,
  .invoke .special ⟨className, "<init>", [], "V"⟩, .loadShort .reference 1, .retValue .reference]

def frame : Frame := ⟨(∅ : Std.HashMap String UInt16).insert "tmp0" 1, 2⟩

theorem framed (n : String) : Frame.ofMethod (lowered n) = .ok frame := by
  simp [lowered, Lowering.newObjectCode, frame, Frame.ofMethod, Frame.empty, Frame.add,
    Code.Method.names, Code.Instr.names, Operand.names, bind, Except.bind, pure, Except.pure,
    UInt16.size]

/-- What is selected depends on the class only through the slot of the temporary, the kind of the type
and the internal name, so that one run covers every class. -/
theorem selected {site : Site} {n className : String} (hSlot : site.slot "tmp0" = .ok 1)
    (hKind : kindOf (.ofSource (.object n)) = .ok .reference)
    (hClass : site.scope.classOf (.variable "tmp0" (.object n)) = .ok className) :
    (codeOf site (lowered n).body).run ⟨0, []⟩ = .ok (body className, ⟨0, []⟩) := by
  have hLoad : site.load (.variable "tmp0" (.object n)) = .ok [.loadShort .reference 1] :=
    Site.load_variable_ok.mpr ⟨.reference, 1, rfl, hSlot, rfl⟩
  refine codeOf_cons_run.mpr
    ⟨(body className).take 3, ⟨0, ["tmp0"]⟩, (body className).drop 3, ?_, ?_, rfl⟩
  · have hNamed : site.scope.classOf (.classRef n) = .ok className := hClass
    rw [Site.instr_assign]
    exact (Site.assign_newObject_run rfl).mpr ⟨1, _, hSlot, hNamed, rfl, rfl⟩
  refine codeOf_cons_run.mpr
    ⟨((body className).drop 3).take 1, ⟨0, []⟩, (body className).drop 4, ?_, ?_, rfl⟩
  · refine Site.callStatement_run.mpr ⟨_, false, Site.call_invokeSpecial_run.mpr ⟨"<init>", _, [], rfl,
      Site.specialReceiver_run.mpr (.inl ⟨_, _, rfl, rfl, hClass, rfl, rfl⟩),
      Site.invocation_ok.mpr ⟨[], Site.loadAll_nil_ok.mpr rfl, ?_, ?_⟩⟩, rfl⟩ <;>
      rw [methodRef_nil] <;> rfl
  · exact codeOf_cons_run.mpr ⟨_, ⟨0, []⟩, [], Site.instr_ret_run.mpr
      ⟨Site.ret_some_ok.mpr ⟨_, .reference, hLoad, hKind, rfl⟩, rfl⟩, codeOf_nil_run.mpr ⟨rfl, rfl⟩, rfl⟩

/-- The block of the method, with the internal name that the imports of the class lead to, in its header
and in its code. -/
theorem emitted (imports : List String) {n : String}
    (hKind : kindOf (.ofSource (.object n)) = .ok .reference) :
    methodBlocks (.ofUnit "java/lang/Object" (unit imports n)) 0 (unit imports n).methods =
      .ok [⟨methodHeader (.ofUnit "java/lang/Object" (unit imports n)) (lowered n), 2, 2,
        body (qualify (unit imports n) n)⟩] := by
  have hSlot : Site.slot ⟨.ofUnit "java/lang/Object" (unit imports n), lowered n, frame⟩ "tmp0" =
      .ok 1 := by
    simp [Site.slot_ok, Frame.slot?, frame]
  have hUsage : Stack.usage "make" (body (qualify (unit imports n) n)) = .ok ⟨2, 0⟩ := rfl
  exact methodBlocks_cons_ok.mpr ⟨_, _, _, methodBlock_ok.mpr ⟨frame, _, _, _, framed n,
    selected hSlot hKind rfl, hUsage, rfl, rfl⟩, rfl, rfl⟩

/-- An imported class: the name in the code is the one that the program writes, and imports are kept
beside it. -/
theorem lowered_box :
    Lowering.ofProgram true (program [["a", "Box"]] "Box") = .ok (unit ["a.Box"] "Box") := by
  decide +kernel

theorem lowered_string : Lowering.ofProgram true (program [] "String") = .ok (unit [] "String") := by
  decide +kernel

end Maker

/-- An imported class goes by its full name where an object of it is made and where it is declared. -/
theorem box_named_throughout :
    Lowering.ofProgram true (Maker.program [["a", "Box"]] "Box") = .ok (Maker.unit ["a.Box"] "Box") ∧
      ∃ text, classText .standard (Maker.unit ["a.Box"] "Box") = .ok text ∧
        NamedThroughout (Maker.program [["a", "Box"]] "Box")
          (.ofUnit "java/lang/Object" (Maker.unit ["a.Box"] "Box")) text
          [⟨"make()La/Box;", 2, 2, Maker.body "a/Box"⟩] "Box" "a/Box" := by
  have hEmitted := Maker.emitted ["a.Box"] (n := "Box") rfl
  have hName : qualify (Maker.unit ["a.Box"] "Box") "Box" = "a/Box" := by decide
  obtain ⟨text, hText⟩ : ∃ text, classText .standard (Maker.unit ["a.Box"] "Box") = .ok text :=
    ⟨_, classText_ok.mpr ⟨_, hEmitted, rfl⟩⟩
  obtain ⟨blocks, hBlocks, hNamed⟩ := named_throughout Maker.lowered_box hText (n := "Box") (by decide)
    (by decide) (by decide) (fun hn => absurd hn (by decide))
  obtain rfl := Except.ok.inj (hEmitted.symm.trans hBlocks)
  rw [hName] at hNamed
  exact ⟨Maker.lowered_box, text, hText, hNamed⟩

/-- A method that makes a string: its header declares a string of the class library, and its code makes
an object of another class. -/
theorem string_not_named_throughout :
    Lowering.ofProgram true (Maker.program [] "String") = .ok (Maker.unit [] "String") ∧
      ∃ text blocks, classText .standard (Maker.unit [] "String") = .ok text ∧
        methodBlocks (.ofUnit "java/lang/Object" (Maker.unit [] "String")) 0
          (Maker.unit [] "String").methods = .ok blocks ∧
        ∀ className, ¬NamedThroughout (Maker.program [] "String")
          (.ofUnit "java/lang/Object" (Maker.unit [] "String")) text blocks "String" className := by
  have hEmitted := Maker.emitted [] (n := "String") rfl
  refine ⟨Maker.lowered_string, _, _, classText_ok.mpr ⟨_, hEmitted, rfl⟩, hEmitted, ?_⟩
  intro className hNamed
  obtain ⟨block, hBlock, hBody⟩ := hNamed.bodies 0 (Maker.source "String") rfl
  obtain rfl := Option.some.inj hBlock
  have hReferences : (Maker.source "String").references (Maker.program [] "String") =
      [.new "String", .construct "String"] := rfl
  rw [hReferences] at hBody
  have hNew := (List.forall₂_cons.mp hBody).1 rfl
  obtain rfl : qualify (Maker.unit [] "String") "String" = className := Stack.Instr.new.inj hNew
  exact absurd hNamed.descriptor (by decide)

end MiniJava.Assembly
