import MiniJava.CommandLine.Plan

/-!
The command on the file system.
-/

namespace MiniJava.CommandLine

/-- The text for a failure that the system numbers: its own words, and the number in parentheses behind
them. -/
def numbered (code : UInt32) (details : String) : String :=
  details ++ " (os error " ++ toString code.toNat ++ ")"

/-- The system's text for a failure. Failures that carry a number show it behind the text; the path of
the file is left out. -/
def systemMessage (e : IO.Error) : String :=
  match e with
  | .alreadyExists _ code details | .otherError code details | .resourceBusy code details
  | .resourceVanished code details | .unsupportedOperation code details
  | .hardwareFault code details | .unsatisfiedConstraints code details
  | .illegalOperation code details | .protocolError code details | .timeExpired code details
  | .interrupted _ code details | .noFileOrDirectory _ code details
  | .invalidArgument _ code details | .permissionDenied _ code details
  | .resourceExhausted _ code details | .inappropriateType _ code details
  | .noSuchThing _ code details => numbered code details
  | .unexpectedEof | .userError _ => toString e

/-- The text of a file, read as a whole. A file that holds no text is refused by the library, and
reported as any other failure to read. -/
def readText (path : String) : IO String := IO.FS.withFile path .read (·.readToEnd)

def writeText (path text : String) : IO Unit :=
  IO.FS.withFile path .write fun handle => do
    handle.putStr text
    handle.flush

def printAll (stream : IO.FS.Stream) (text : String) : IO Unit := do
  stream.putStr text
  stream.flush

/-- Reports a failure on an input. -/
def report (input message : String) : IO UInt32 := do
  printAll (← IO.getStderr) (failureLine input message)
  return 1

/-- Takes actions until one fails, and gives the exit code. What was printed or written before the
failure stays, as in a run on a file system that is a value. -/
def perform (input : String) : List Action → IO UInt32
  | [] => return 0
  | .print text :: rest => do
      printAll (← IO.getStdout) text
      perform input rest
  | .fail e :: _ => report input e.message
  | .write path content :: rest => do
      match ← (writeText path content).toBaseIO with
      | .ok _ => perform input rest
      | .error e => report input (systemMessage e)

/-- The command on the real file system, where reports carry the wording of the system. -/
def runOnSystem (args : List String) : IO UInt32 := do
  match parse args with
  | .error e =>
      printAll (← IO.getStderr) (usageLine e)
      return 2
  | .ok .help =>
      printAll (← IO.getStdout) helpText
      return 0
  | .ok .version =>
      printAll (← IO.getStdout) versionLine
      return 0
  | .ok (.compile input options) =>
      match ← (readText input).toBaseIO with
      | .error e => report input (systemMessage e)
      | .ok source => perform input (plan input options source)

end MiniJava.CommandLine

def main (args : List String) : IO UInt32 := MiniJava.CommandLine.runOnSystem args
