import MiniJava.CommandLine.Path

/-!
A file system that is a value: what lies at which path, seen from a working directory. A path is
followed name by name, so that of two faults in it the earlier one is reported.
-/

namespace MiniJava.CommandLine

/-- Why a file cannot be read or written. The wording is that of the system, with its number. -/
inductive FileError where
  | notFound
  | notDirectory
  | isDirectory
  | noSpace
  | nameTooLong
deriving DecidableEq, Repr, Inhabited

def FileError.message : FileError → String
  | .notFound => "No such file or directory (os error 2)"
  | .notDirectory => "Not a directory (os error 20)"
  | .isDirectory => "Is a directory (os error 21)"
  | .noSpace => "No space left on device (os error 28)"
  | .nameTooLong => "File name too long (os error 36)"

/-- A file with no storage behind it. Nothing can be read from it, and nothing that is written to it is
found there later. -/
inductive Device where
  /-- Takes every text and keeps none. -/
  | null
  /-- Takes no text. -/
  | full
  /-- Passes text on to an output of the command. -/
  | stdout
  | stderr
deriving DecidableEq, Repr, Inhabited

/-- What can lie at a path. A directory holds no list of its parts; they are found by their own paths. -/
inductive Node where
  | file (content : String)
  | directory
  | device (device : Device)
deriving DecidableEq, Repr, Inhabited

/-- What lies at a path, which is given by its names from the root on. The root itself has no names. -/
structure Entry where
  path : List String
  node : Node
deriving DecidableEq, Repr, Inhabited

/-- The directories and devices that every system has. The devices for outputs of the command are among
them. -/
def standardEntries : List Entry :=
  (["bin", "boot", "etc", "home", "lib", "lib64", "media", "mnt", "opt", "proc", "root", "run",
    "sbin", "srv", "sys", "tmp", "usr", "var"].map fun name => ⟨[name], .directory⟩) ++
  [⟨["dev", "null"], .device .null⟩, ⟨["dev", "full"], .device .full⟩,
    ⟨["dev", "stdin"], .device .null⟩, ⟨["dev", "stdout"], .device .stdout⟩,
    ⟨["dev", "stderr"], .device .stderr⟩]

/-- What lies where, and the directory from which relative paths lead. There are no links, so a path has
one meaning. -/
structure FileSystem where
  workingDirectory : List String
  entries : List Entry
deriving DecidableEq, Repr, Inhabited

/-- What a text is written to: a file, which need not be there yet, or a device. -/
inductive Sink where
  | file (path : List String)
  | device (device : Device)
deriving DecidableEq, Repr, Inhabited

/-- How many bytes a name may have. It is the bytes that count, not the characters. -/
def nameLimit : Nat := 255

/-- How many bytes a path may have, with all its slashes. -/
def pathLimit : Nat := 4095

/-- The names of a path that is neither empty nor too long. Nothing is looked up yet. -/
def Path.parse (s : String) : Except FileError Path :=
  if s.isEmpty then .error .notFound
  else if pathLimit < s.utf8ByteSize then .error .nameTooLong
  else .ok (.ofString s)

namespace FileSystem

/-- Directories are there because something is in them or because they are entries themselves. -/
def isDirectory (fs : FileSystem) (path : List String) : Bool :=
  path.isPrefixOf fs.workingDirectory ||
    fs.entries.any fun entry =>
      path.isPrefixOf entry.path && (entry.path ≠ path || entry.node = .directory)

/-- What lies at a path. Directories come first, since they need no entry of their own. -/
def node? (fs : FileSystem) (path : List String) : Option Node :=
  if fs.isDirectory path then some .directory
  else (fs.entries.find? (·.path = path)).map (·.node)

/-- The path to which a name leads from a directory, and what lies there. The root is its own
parent. -/
def lookup (fs : FileSystem) (here : List String) (name : String) :
    Except FileError (List String × Option Node) :=
  if name = "." then .ok (here, some .directory)
  else if name = ".." then .ok (here.dropLast, some .directory)
  else if nameLimit < name.utf8ByteSize then .error .nameTooLong
  else .ok (here ++ [name], fs.node? (here ++ [name]))

/-- The directory to which a name leads from a directory. A file cannot be entered, and neither can a
device. -/
def enter (fs : FileSystem) (here : List String) (name : String) :
    Except FileError (List String) := do
  match ← fs.lookup here name with
  | (path, some .directory) => return path
  | (_, some _) => throw .notDirectory
  | (_, none) => throw .notFound

/-- The directory in which the last name of a path stands. All names before it must lead to
directories. -/
def parent (fs : FileSystem) (path : Path) : Except FileError (List String) :=
  path.directories.foldlM fs.enter (if path.isAbsolute then [] else fs.workingDirectory)

/-- What stands at the end of a path, looked up in its parent. A path of slashes alone ends in the
directory itself. -/
def target (fs : FileSystem) (parent : List String) (path : Path) :
    Except FileError (List String × Option Node) :=
  match path.last with
  | some name => fs.lookup parent name
  | none => .ok (parent, some .directory)

/-- The text of a file. A device gives the empty text, and a slash at the end of the path asks for a
directory. -/
def read (fs : FileSystem) (s : String) : Except FileError String := do
  let path ← Path.parse s
  let parent ← fs.parent path
  match ← fs.target parent path with
  | (_, none) => throw .notFound
  | (_, some .directory) => throw .isDirectory
  | (_, some (.file content)) => if path.endsInSlash then throw .notDirectory else return content
  | (_, some (.device _)) => if path.endsInSlash then throw .notDirectory else return ""

/-- What a text for a path is written to. A path that ends in a slash can mean nothing but a
directory, whatever lies there. -/
def sink (fs : FileSystem) (s : String) : Except FileError Sink := do
  let path ← Path.parse s
  let parent ← fs.parent path
  if path.endsInSlash then throw .isDirectory
  else
    match ← fs.target parent path with
    | (_, some .directory) => throw .isDirectory
    | (_, some (.device device)) => return .device device
    | (path, some (.file _)) | (path, none) => return .file path

/-- Puts an entry in place of the one at its path, or after all others. The others keep their order. -/
def putEntry (entry : Entry) : List Entry → List Entry
  | [] => [entry]
  | first :: rest => if first.path = entry.path then entry :: rest else first :: putEntry entry rest

/-- Puts an entry into the file system, in place of what lay at its path. Nothing else changes. -/
def put (fs : FileSystem) (entry : Entry) : FileSystem :=
  { fs with entries := putEntry entry fs.entries }

end FileSystem

end MiniJava.CommandLine
