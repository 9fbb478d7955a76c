/-! # Paths

A path is a text whose components are parted by slashes. Making a directory together with those above it is a
list of single steps, `Path.directoriesTo`, one for each directory on the way.
-/

namespace TensorCompiler.CommandLine

/-- A path by its components. An empty component and a dot stand for the directory reached so far, two dots
for its parent. -/
abbrev Path := List String

namespace Path

/-- The greatest number of bytes in the text of a path. -/
def longest : Nat := 4095

/-- The greatest number of bytes in a name. -/
def longestName : Nat := 255

/-- The components of a path. An absolute path begins with an empty one, a final slash leaves one at the end. -/
def ofString (text : String) : Path :=
  text.splitOn "/"

/-- The text of a path. -/
def text (path : Path) : String :=
  "/".intercalate path

/-- A component that leads no further. -/
def stays (component : String) : Bool :=
  component == "" || component == "."

/-- A component that names an entry: it leads to no directory by itself and is not too long. -/
def isName (component : String) : Bool :=
  !stays component && component != ".." && component.utf8ByteSize ≤ longestName

/-- The path without its final slashes. -/
def withoutFinalSlash (path : Path) : Path :=
  (path.reverse.dropWhile (· == "")).reverse

/-- The path up to the last component that leads further. -/
def trimmed (path : Path) : Path :=
  (path.reverse.dropWhile stays).reverse

/-- The paths on the way to a path, the shortest first. Each ends with a component that leads further. -/
def above (path : Path) : List Path :=
  let way := path.trimmed.dropLast
  (List.range way.length).filterMap fun k =>
    if stays (way.getD k "") then none else some (way.take (k + 1))

example : above ["", "a", ".", "b", ""] = [["", "a"]] := by decide
example : above ["x", "..", "y", "."] = [["x"], ["x", ".."]] := by decide
example : above ["", ""] = [] := by decide

/-- The directories to be made, one after the other, so that a directory stands at a path. The last step names
the path as it is given, so a dot at its end asks for a directory that is there already. A path that is too
long has no steps. -/
def directoriesTo (path : String) : List String :=
  if path.utf8ByteSize ≤ longest then (ofString path).above.map text ++ [path] else []

/-- A file in a directory. -/
def inDirectory (directory file : String) : String :=
  directory ++ "/" ++ file

/-- The components of a path for a program that runs in the given directory, unless the path is too long. -/
def locate? (workingDirectory : Path) (path : String) : Option Path :=
  if path.utf8ByteSize ≤ longest then
    some (if path.startsWith "/" then ofString path else workingDirectory ++ ofString path)
  else none

end Path

end TensorCompiler.CommandLine
