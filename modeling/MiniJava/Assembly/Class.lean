import MiniJava.Assembly.Selection
import MiniJava.Stack.Block
import MiniJava.Stack.Depth

/-!
The assembly text of a class.
-/

namespace MiniJava.Assembly

open Code (ClassUnit Method)

/-- What the text of a class depends on besides the class: the superclass of a class that names none, and
the blanks in front of an instruction. -/
structure Options where
  /-- The internal name of the superclass of a class that names none. -/
  defaultSuper : String
  indent : String
deriving DecidableEq, Repr, Inhabited

def Options.standard : Options := ⟨"java/lang/Object", "    "⟩

/-- The line that opens a method: its modifiers, its name, and the descriptor that the types of its
parameters and of its result make up. -/
def methodHeader (scope : ClassScope) (m : Method) : String :=
  m.modifiers ++ m.name ++ "(" ++ String.join (m.parameterTypes.map scope.descriptor) ++ ")" ++
    scope.descriptor m.returnType

/-- The code of instructions, one after the other. What waits for a constructor and the number of
comparisons are handed on from each instruction to the next. -/
def codeOf (site : Site) : List Code.Instr → Select (List Stack.Instr)
  | [] => return []
  | i :: rest => return (← site.instr i) ++ (← codeOf site rest)

/-- A method, after `comparisons` comparisons were turned into values before it in the class; also their
number after it. Its slots are fixed first, then its code is selected, and the limits are read off the
two. -/
def methodBlock (scope : ClassScope) (comparisons : Nat) (m : Method) :
    Except CompileError (Stack.Block × Nat) := do
  let frame ← Frame.ofMethod m
  let (body, progress) ← (codeOf ⟨scope, m, frame⟩ m.body).run ⟨comparisons, []⟩
  let usage ← Stack.usage m.name body
  return ({
    header := methodHeader scope m
    maxStack := usage.maxDepth
    maxLocals := frame.size
    body }, progress.comparisons)

/-- The methods of a class in their order. The number of comparisons runs on from one to the next, so
that no two methods share a label. -/
def methodBlocks (scope : ClassScope) (comparisons : Nat) :
    List Method → Except CompileError (List Stack.Block)
  | [] => return []
  | m :: rest => do
      let (block, comparisons) ← methodBlock scope comparisons m
      return block :: (← methodBlocks scope comparisons rest)

/-- A constructor that only calls the constructor of the superclass. Its limits are known beforehand: the
receiver is all that it keeps, and all that it pushes. -/
def defaultConstructor (scope : ClassScope) : Stack.Block where
  header := "public <init>()V"
  maxStack := 1
  maxLocals := 1
  body := [Stack.loadSlot .reference 0, .invoke .special ⟨scope.superName, "<init>", [], "V"⟩, .ret]

/-- The line of a field. Every field is public, and its name stands in quotes, whatever the name is. -/
def fieldLine (scope : ClassScope) (field : Code.Variable) : String :=
  ".field public '" ++ field.name ++ "' " ++ scope.descriptor field.ty ++ "\n"

def fieldsText (scope : ClassScope) : String :=
  if scope.unit.fields.isEmpty then ""
  else "\n" ++ String.join (scope.unit.fields.map (fieldLine scope))

/-- The default constructor with a remark in front, for a class that is to have one. It stands before the
methods of the class. -/
def constructorText (scope : ClassScope) (indent : String) : String :=
  if scope.unit.hasDefaultConstructor then
    "\n; default constructor\n" ++ (defaultConstructor scope).text indent
  else ""

/-- The text of a class: its name and superclass, its fields, the default constructor if there is to be
one, and its methods. If one method fails there is no text at all. -/
def classText (options : Options) (unit : ClassUnit) : Except CompileError String := do
  let scope := ClassScope.ofUnit options.defaultSuper unit
  let blocks ← methodBlocks scope 0 unit.methods
  return ".class public " ++ unit.name ++ "\n.super " ++ scope.superName ++ "\n" ++
    fieldsText scope ++ constructorText scope options.indent ++
    String.join (blocks.map fun block => "\n" ++ block.text options.indent)

end MiniJava.Assembly
