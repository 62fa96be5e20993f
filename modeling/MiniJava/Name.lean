/-!
Dotted names, such as `java.util.List`.
-/

namespace MiniJava

/-- The part of a dotted name after its last dot; the whole name if it has none. This is how a program
refers to a class that it imports. -/
def lastSegment (name : String) : String :=
  String.ofList (name.toList.reverse.takeWhile (· ≠ '.')).reverse

/-- A dotted name with slashes for dots, as class files spell it. Names without dots are left alone, so
the names of classes in the default package stay. -/
def slashed (name : String) : String :=
  String.ofList (name.toList.map fun c => if c = '.' then '/' else c)

/-- The first of the dotted names that ends in the segment `name`. Two imports may end alike; the earlier
one hides the later. -/
def importOf? (imports : List String) (name : String) : Option String :=
  imports.find? fun path => lastSegment path = name

end MiniJava
