/-!
The arguments of the command. Options may stand before or after the input, each at most once; a
value follows its option or is attached to it; after `--` every argument is an input.
-/

namespace MiniJava.CommandLine

/-- What the options of a compilation say: where the outputs go, and which of them are wanted. -/
structure CompileOptions where
  output : Option String
  printIr : Bool
  saveIr : Bool
  irOutput : Option String
  dumpIrJson : Bool
deriving DecidableEq, Repr, Inhabited

/-- What the command is asked to do. Help and version are requests like a compilation and need no
input. -/
inductive Request where
  | help
  | version
  | compile (input : String) (options : CompileOptions)
deriving DecidableEq, Repr, Inhabited

/-- Why arguments are refused. Each cause carries the argument or the option that a report shows. -/
inductive UsageError where
  | missingCommand
  | unknownCommand (arg : String)
  | missingInput
  | unexpectedArgument (arg : String)
  | repeatedOption (option : String)
  | missingValue (option : String)
  | emptyValue (option : String)
  | unexpectedValue (option : String)
deriving DecidableEq, Repr, Inhabited

def UsageError.message : UsageError → String
  | .missingCommand => "no command given"
  | .unknownCommand arg => "unknown command '" ++ arg ++ "'"
  | .missingInput => "no input given"
  | .unexpectedArgument arg => "unexpected argument '" ++ arg ++ "'"
  | .repeatedOption option => "'" ++ option ++ "' cannot be used more than once"
  | .missingValue option => "'" ++ option ++ "' needs a value"
  | .emptyValue option => "the value of '" ++ option ++ "' is empty"
  | .unexpectedValue option => "'" ++ option ++ "' takes no value"

/-- The options, by their long names. Two of them can be given by a letter as well. -/
inductive OptionName where
  | output
  | printIr
  | saveIr
  | irOutput
  | dumpIrJson
  | help
deriving DecidableEq, Repr, Inhabited

namespace OptionName

def all : List OptionName := [.output, .printIr, .saveIr, .irOutput, .dumpIrJson, .help]

def long : OptionName → String
  | .output => "output"
  | .printIr => "print-ir"
  | .saveIr => "save-ir"
  | .irOutput => "ir-output"
  | .dumpIrJson => "dump-ir-json"
  | .help => "help"

def takesValue : OptionName → Bool
  | .output | .irOutput => true
  | .printIr | .saveIr | .dumpIrJson | .help => false

def ofLong? (name : String) : Option OptionName := all.find? (·.long = name)

def ofShort? : Char → Option OptionName
  | 'o' => some .output
  | 'h' => some .help
  | _ => none

/-- How the option is written in a report: by its long name, whichever way it was given. -/
def text (option : OptionName) : String := "--" ++ option.long

end OptionName

/-- One argument, before it is known whether a value follows. It is judged by its own text alone. -/
inductive Arg where
  /-- All that follows is input. -/
  | separator
  /-- An option, with the value attached to it if there is one. -/
  | option (name : OptionName) (value : Option String)
  | unknownOption
  | positional
deriving DecidableEq, Repr, Inhabited

/-- An option by its long name, up to the equals sign. What stands behind the sign is the value, even if
that is empty. -/
def longArg (s : List Char) : Arg :=
  let name := String.ofList (s.takeWhile (· ≠ '='))
  let value := (s.dropWhile (· ≠ '=')).tail?.map String.ofList
  match OptionName.ofLong? name with
  | some option => .option option value
  | none => .unknownOption

/-- An option by its letter. What follows the letter is the value, after an equals sign or at
once; the help option stands for itself. -/
def shortArg (letter : Char) (rest : List Char) : Arg :=
  match OptionName.ofShort? letter, rest with
  | none, _ => .unknownOption
  | some .help, _ => .option .help none
  | some option, [] => .option option none
  | some option, '=' :: value => .option option (some (String.ofList value))
  | some option, value => .option option (some (String.ofList value))

/-- An argument by its first characters. A lone dash is no option, and neither is the empty argument. -/
def Arg.ofString (s : String) : Arg :=
  match s.toList with
  | ['-', '-'] => .separator
  | '-' :: '-' :: name => longArg name
  | '-' :: letter :: rest => shortArg letter rest
  | _ => .positional

/-- What has been given so far: the input, if there was one, and the options. -/
structure Given where
  input : Option String
  options : CompileOptions
deriving DecidableEq, Repr, Inhabited

namespace Given

def nothing : Given := ⟨none, ⟨none, false, false, none, false⟩⟩

/-- Takes an argument as the input. There is one input, and its name is not empty. A second one is
refused before its name is looked at. -/
def addInput (given : Given) (s : String) : Except UsageError Given :=
  if given.input.isSome then .error (.unexpectedArgument s)
  else if s.isEmpty then .error (.emptyValue "input")
  else .ok { given with input := some s }

/-- Whether an option has been given. Help ends the reading, so it is never among them. -/
def has (given : Given) : OptionName → Bool
  | .output => given.options.output.isSome
  | .printIr => given.options.printIr
  | .saveIr => given.options.saveIr
  | .irOutput => given.options.irOutput.isSome
  | .dumpIrJson => given.options.dumpIrJson
  | .help => false

/-- Sets an option, whose value is of use only if it takes one. Nothing is set for help. -/
def set (options : CompileOptions) (name : OptionName) (value : String) : CompileOptions :=
  match name with
  | .output => { options with output := some value }
  | .printIr => { options with printIr := true }
  | .saveIr => { options with saveIr := true }
  | .irOutput => { options with irOutput := some value }
  | .dumpIrJson => { options with dumpIrJson := true }
  | .help => options

/-- Takes an option without a value, which may be given once. A repetition is refused even though it
would change nothing. -/
def addFlag (given : Given) (name : OptionName) : Except UsageError Given :=
  if given.has name then .error (.repeatedOption name.text)
  else .ok { given with options := set given.options name "" }

/-- Takes an option with a value. The value is looked at first, so that an empty one is reported even if
the option is repeated. -/
def addValue (given : Given) (name : OptionName) (value : String) : Except UsageError Given :=
  if value.isEmpty then .error (.emptyValue name.text)
  else if given.has name then .error (.repeatedOption name.text)
  else .ok { given with options := set given.options name value }

/-- The request, once all arguments are read. Without an input there is none. -/
def request (given : Given) : Except UsageError Request :=
  match given.input with
  | some input => .ok (.compile input given.options)
  | none => .error .missingInput

end Given

/-- Reads the arguments after the command. A request for help ends the reading, so that faults behind it
are not reported. -/
def parseCompile (given : Given) : List String → Except UsageError Request
  | [] => given.request
  | s :: rest =>
      match Arg.ofString s with
      | .separator => do (← rest.foldlM Given.addInput given).request
      | .unknownOption => .error (.unexpectedArgument s)
      | .positional => do parseCompile (← given.addInput s) rest
      | .option .help none => .ok .help
      | .option name value =>
          if name.takesValue then
            match value, rest with
            | some value, rest => do parseCompile (← given.addValue name value) rest
            | none, [] => .error (.missingValue name.text)
            | none, value :: rest =>
                match Arg.ofString value with
                | .positional => do parseCompile (← given.addValue name value) rest
                | _ => .error (.missingValue name.text)
          else if value.isSome then .error (.unexpectedValue name.text)
          else do parseCompile (← given.addFlag name) rest

/-- Reads all arguments. The first one is the command; without any there is nothing to do. -/
def parse : List String → Except UsageError Request
  | [] => .error .missingCommand
  | "compile" :: rest => parseCompile .nothing rest
  | ["help"] | ["help", "compile"] | ["help", "help"] => .ok .help
  | s :: _ =>
      match s.toList with
      | '-' :: 'V' :: _ => .ok .version
      | '-' :: 'h' :: _ => .ok .help
      | _ =>
          if s = "--version" then .ok .version
          else if s = "--help" then .ok .help
          else .error (.unknownCommand s)

end MiniJava.CommandLine
