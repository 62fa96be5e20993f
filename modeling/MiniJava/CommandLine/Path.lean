/-!
Paths as they are written: names with slashes between them.
-/

namespace MiniJava.CommandLine

/-- A path by its names. Neighbouring slashes count as one. -/
structure Path where
  /-- Whether the path begins at the root and not at the working directory. -/
  isAbsolute : Bool
  /-- The names of the directories on the way. -/
  directories : List String
  /-- The name at the end; a path of slashes alone has none. -/
  last : Option String
  endsInSlash : Bool
deriving DecidableEq, Repr, Inhabited

/-- The names in a path, without the empty ones that stand between neighbouring slashes. -/
def names (path : String) : List String := (path.splitOn "/").filter (· ≠ "")

/-- The names of a written path. Slashes that follow one another count as one. -/
def Path.ofString (s : String) : Path where
  isAbsolute := s.startsWith "/"
  directories := (names s).dropLast
  last := (names s).getLast?
  endsInSlash := s.endsWith "/"

/-- A file name with its extension replaced, or added if it has none. A dot at the front begins no
extension. -/
def renamed (name : List Char) (extension : String) : List Char :=
  let stem := (name.reverse.dropWhile (· ≠ '.')).tail.reverse
  (if stem = [] then name else stem) ++ '.' :: extension.toList

/-- A path whose file name has its extension replaced. The directories in front stay as they are
written. -/
def replaceExtension (path extension : String) : String :=
  let reversed := path.toList.reverse
  let name := (reversed.takeWhile (· ≠ '/')).reverse
  let parent := (reversed.dropWhile (· ≠ '/')).reverse
  String.ofList (parent ++ renamed name extension)

end MiniJava.CommandLine
