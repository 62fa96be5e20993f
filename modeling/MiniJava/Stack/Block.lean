import MiniJava.Stack.Instr

/-!
The text of code and of a method.
-/

namespace MiniJava.Stack

/-- One line of code: labels stand at the margin, all other instructions behind the blanks. The assembler
takes both alike; the margin is for the reader. -/
def instrLine (indent : String) : Instr → String
  | .label name => (Instr.label name).text ++ "\n"
  | i => indent ++ i.text ++ "\n"

/-- The text of code, one instruction a line. Every line ends with a line feed, the last one too, so that
the end of the method follows on a line of its own. -/
def codeText (indent : String) (code : List Instr) : String :=
  String.join (code.map (instrLine indent))

/-- A method as the assembler wants it: the header line, the two limits, and the code between them and
the end. -/
structure Block where
  header : String
  maxStack : UInt16
  maxLocals : UInt16
  body : List Instr
deriving DecidableEq, Repr, Inhabited

/-- The text of a method. The limits are given as plain numbers, in front of the code. -/
def Block.text (indent : String) (block : Block) : String :=
  ".method " ++ block.header ++ "\n" ++
    indent ++ ".limit stack " ++ toString block.maxStack.toNat ++ "\n" ++
    indent ++ ".limit locals " ++ toString block.maxLocals.toNat ++ "\n" ++
    codeText indent block.body ++ ".end method\n"

end MiniJava.Stack
