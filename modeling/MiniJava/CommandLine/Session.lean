import MiniJava.CommandLine.FileSystem
import MiniJava.CommandLine.Plan

/-!
The command on a file system that is a value.
-/

namespace MiniJava.CommandLine

/-- What the command has done so far: what its files are now, and what stands on its two outputs. -/
structure Session where
  fileSystem : FileSystem
  stdout : String
  stderr : String
deriving DecidableEq, Repr, Inhabited

namespace Session

def start (fileSystem : FileSystem) : Session := ⟨fileSystem, "", ""⟩

def print (session : Session) (text : String) : Session :=
  { session with stdout := session.stdout ++ text }

/-- A report on the error stream, after whatever stands there already. -/
def complain (session : Session) (text : String) : Session :=
  { session with stderr := session.stderr ++ text }

/-- Writes a text to where a path leads: into a file, which then holds this text alone, or to a
device. -/
def send (session : Session) (text : String) : Sink → Except FileError Session
  | .file path =>
      .ok { session with fileSystem := session.fileSystem.put ⟨path, .file text⟩ }
  | .device .null => .ok session
  | .device .full => .error .noSpace
  | .device .stdout => .ok (session.print text)
  | .device .stderr => .ok (session.complain text)

/-- Writes a text to a path, in place of what a file there held. The path is followed anew for every
text. -/
def write (session : Session) (path text : String) : Except FileError Session := do
  session.send text (← session.fileSystem.sink path)

end Session

/-- What a run of the command leaves: its exit code, its files and its outputs. -/
structure Outcome where
  exitCode : Nat
  session : Session
deriving DecidableEq, Repr, Inhabited

/-- The end of a run that failed on an input. The report goes to the error stream, and the code is
one. -/
def failed (session : Session) (input message : String) : Outcome :=
  ⟨1, session.complain (failureLine input message)⟩

/-- Takes actions on an input until one fails. What was written before the failure stays written. -/
def takeActions (input : String) (session : Session) : List Action → Outcome
  | [] => ⟨0, session⟩
  | .print text :: rest => takeActions input (session.print text) rest
  | .fail e :: _ => failed session input e.message
  | .write path content :: rest =>
      match session.write path content with
      | .ok session => takeActions input session rest
      | .error e => failed session input e.message

/-- Runs the command: reads the arguments, then the input, and takes the actions planned for it. Wrong
arguments end it with code 2, any other failure with code 1. -/
def run (args : List String) (fileSystem : FileSystem) : Outcome :=
  let session := Session.start fileSystem
  match parse args with
  | .error e => ⟨2, session.complain (usageLine e)⟩
  | .ok .help => ⟨0, session.print helpText⟩
  | .ok .version => ⟨0, session.print versionLine⟩
  | .ok (.compile input options) =>
      match fileSystem.read input with
      | .error e => failed session input e.message
      | .ok source => takeActions input session (plan input options source)

end MiniJava.CommandLine
