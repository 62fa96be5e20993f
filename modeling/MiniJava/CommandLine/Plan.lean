import MiniJava.Assembly.Class
import MiniJava.Code.Writer
import MiniJava.CommandLine.Arguments
import MiniJava.CommandLine.Path
import MiniJava.Json.Writer
import MiniJava.Lowering.Unit
import MiniJava.Source.Reader

/-!
What the command does with an input that it could read: a list of actions, taken in order up to
the first that fails. Files named on the command line are taken as they are; other outputs stand
beside the input, under its name with another extension.
-/

namespace MiniJava.CommandLine

/-- One thing that the command does. A failure is an action too, and no other one is taken after it. -/
inductive Action where
  | print (text : String)
  | write (path content : String)
  | fail (error : CompileError)
deriving DecidableEq, Repr, Inhabited

/-- Shows the three-address code between two lines, if asked to. This comes before any file is
written. -/
def printActions (options : CompileOptions) (irText : String) : List Action :=
  if options.printIr then [.print ("=== IR Output ===\n" ++ irText ++ "\n=== End IR ===\n")] else []

/-- Writes the three-address code to a file, if asked to, and says where it went. Where it goes can be
given; else it stands beside the input. -/
def saveActions (input : String) (options : CompileOptions) (irText : String) : List Action :=
  if options.saveIr then
    let path := options.irOutput.getD (replaceExtension input "ollir")
    [.write path (irText ++ "\n"), .print ("IR saved to: " ++ path ++ "\n")]
  else []

/-- Shows the three-address code as JSON, if asked to, with one part a line. -/
def dumpActions (options : CompileOptions) (unit : Code.ClassUnit) : List Action :=
  if options.dumpIrJson then [.print (unit.toJson.pretty ++ "\n")] else []

/-- Writes the assembly text and says where it went. If there is none, that failure is all that is left
to report, after the outputs that come before it. -/
def assemblyActions (input : String) (options : CompileOptions) (unit : Code.ClassUnit) :
    List Action :=
  match Assembly.classText .standard unit with
  | .error e => [.fail e]
  | .ok text =>
      let path := options.output.getD (replaceExtension input "j")
      [.write path text, .print ("Assembly written to: " ++ path ++ "\n")]

/-- The three-address code of the program that a text spells. The class gets a default constructor in
every case. -/
def unitOf (source : String) : Except CompileError Code.ClassUnit :=
  (Source.Program.parse source).bind (Lowering.ofProgram true)

/-- The actions for an input with the given text. A program for which there is no three-address code
gives a report and no output. -/
def plan (input : String) (options : CompileOptions) (source : String) : List Action :=
  match unitOf source with
  | .error e => [.fail e]
  | .ok unit =>
      printActions options unit.text ++ saveActions input options unit.text ++
        dumpActions options unit ++ assemblyActions input options unit

def versionLine : String := "jmmc 0.1.0\n"

def helpText : String :=
  "Code generator for typed programs\n\n" ++
  "Usage: jmmc compile [OPTIONS] <INPUT>\n\n" ++
  "Options:\n" ++
  "  -o, --output <FILE>     where the assembly goes\n" ++
  "      --print-ir          print the three-address code\n" ++
  "      --save-ir           write the three-address code to a file\n" ++
  "      --ir-output <FILE>  where the three-address code goes\n" ++
  "      --dump-ir-json      print the three-address code as JSON\n" ++
  "  -h, --help              print this text\n"

/-- The report of a failure. It names the input, whichever file it was that failed. -/
def failureLine (input message : String) : String :=
  "Error compiling " ++ input ++ ": " ++ message ++ "\n"

def usageLine (e : UsageError) : String := "error: " ++ e.message ++ "\n"

end MiniJava.CommandLine
