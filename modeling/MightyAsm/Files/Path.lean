import MightyAsm.Text.Basic

/-!
# Paths

A path names a file by the names on the way to it, with slashes between them. Two parts have
a meaning of their own: `.` is the directory reached so far and `..` the one above it.

* `Path.parts`: all parts, as a walk along the path takes them;
* `Path.components`: the parts that tell places apart, without a `.` after the first;
* `Path.ancestors`: a path and what is left of it when components are taken off its end.
-/

namespace MightyAsm.Path

/-- The part that stands for the directory reached so far. -/
def dot : Text :=
  ['.']

/-- The part that stands for the directory above. -/
def dotDot : Text :=
  ['.', '.']

/-- Whether a path starts at the root. -/
def isAbsolute (path : Text) : Bool :=
  path.head? == some '/'

/-- Whether a path ends in a slash. -/
def endsInSlash (path : Text) : Bool :=
  path.getLast? == some '/'

/-- The parts of a path between its slashes. -/
def parts (path : Text) : List Text :=
  (path.splitOn '/').filter fun part => !part.isEmpty

/-- The parts of a path without those that lead nowhere: a `.` counts only at the start of a
path that is not absolute. -/
def components (path : Text) : List Text :=
  match parts path with
  | [] => []
  | first :: rest =>
      let rest := rest.filter (· != dot)
      if first = dot ∧ isAbsolute path then rest else first :: rest

/-- The path with these components. -/
def ofComponents (absolute : Bool) (components : List Text) : Text :=
  if absolute then '/' :: Text.join '/' components else Text.join '/' components

/-- A path, and then the paths that are left when one component after the other is taken off
its end, as long as there are any. -/
def ancestors (path : Text) : List Text :=
  match components path with
  | [] => []
  | all =>
      let shorter := (List.range' 1 (all.length - 1)).reverse.map all.take
      path :: shorter.map (ofComponents (isAbsolute path))

/-- The last component of a path, if it is the name of a file. -/
def fileName? (path : Text) : Option Text :=
  match (components path).getLast? with
  | some name => if name = dot ∨ name = dotDot then none else some name
  | none => none

/-- A file name without its extension, which begins at the last dot. A dot at the start of the
name begins no extension. -/
def withoutExtension (name : Text) : Text :=
  match (name.reverse.dropWhile (· != '.')).drop 1 with
  | [] => name
  | stem => stem.reverse

/-- The last component of a path without its extension. -/
def stem? (path : Text) : Option Text :=
  (fileName? path).map withoutExtension

/-- The path of a file in a directory. -/
def join (dir name : Text) : Text :=
  if endsInSlash dir then dir ++ name else dir ++ '/' :: name

end MightyAsm.Path
