import MightyAsm.Files.OsError
import MightyAsm.Files.Path

/-!
# File systems

A file system holds files and directories at locations, which are the names on the way from
the root. A path is resolved by walking along its parts: every part but the last has to be
a directory, a name has to exist, and no name has more than 255 bytes.

* `FileSystem.readFile`: the content of a file;
* `FileSystem.writeFile`: makes a file with a content, or replaces its content;
* `FileSystem.makeDir`: makes one directory;
* `FileSystem.changes`: what is new or has changed between two states.
-/

namespace MightyAsm

/-- The names on the way from the root. -/
abbrev Location := List Text

/-- What can be at a location. -/
inductive Node where
  | file (content : Array UInt8)
  | directory
deriving DecidableEq, Repr

/-- The files and directories below the root, and the location of the working directory. -/
structure FileSystem where
  nodes : List (Location × Node) := []
  cwd : Location := []
deriving DecidableEq, Repr

namespace FileSystem

/-- What is at a location. -/
def node? (fs : FileSystem) (loc : Location) : Option Node :=
  match loc with
  | [] => some .directory
  | _ => fs.nodes.lookup loc

/-- Whether there is a directory at a location. -/
def isDirAt (fs : FileSystem) (loc : Location) : Bool :=
  fs.node? loc == some .directory

/-- The file system with a node at a location, in place of what was there. -/
def set (fs : FileSystem) (loc : Location) (node : Node) : FileSystem :=
  if (fs.nodes.lookup loc).isSome then
    { fs with nodes := fs.nodes.map fun entry => if entry.1 = loc then (loc, node) else entry }
  else { fs with nodes := fs.nodes ++ [(loc, node)] }

/-! ## Walking -/

/-- The greatest number of bytes in a name. -/
def maxName : Nat := 255

/-- The number of bytes from which on a path is too long. -/
def maxPath : Nat := 4096

/-- The location that is reached from `loc` along the parts of a path. -/
def walk (fs : FileSystem) (loc : Location) : List Text → Except OsError Location
  | [] => .ok loc
  | part :: rest =>
      if !fs.isDirAt loc then .error .notDirectory
      else if part = Path.dot then fs.walk loc rest
      else if part = Path.dotDot then fs.walk loc.dropLast rest
      else if maxName < part.byteSize then .error .nameTooLong
      else if (fs.node? (loc ++ [part])).isNone then .error .notFound
      else fs.walk (loc ++ [part]) rest

/-- The location where the walk along a path starts. -/
def start (fs : FileSystem) (path : Text) : Location :=
  if Path.isAbsolute path then [] else fs.cwd

/-- A path has at least one byte and not too many. -/
def checkPath (path : Text) : Except OsError Unit :=
  if path.isEmpty then .error .notFound
  else if maxPath ≤ path.byteSize then .error .nameTooLong
  else .ok ()

/-- The location of what a path names. What a slash follows has to be a directory. -/
def resolve (fs : FileSystem) (path : Text) : Except OsError Location := do
  checkPath path
  let slash := if Path.endsInSlash path then [Path.dot] else []
  fs.walk (fs.start path) (Path.parts path ++ slash)

/-- The directory of the last part of a path, and that part. There is no last part if the path
names the root. -/
def resolveParent (fs : FileSystem) (path : Text) : Except OsError (Location × Option Text) := do
  checkPath path
  match (Path.parts path).getLast? with
  | none => return (fs.start path, none)
  | some last =>
      let parent ← fs.walk (fs.start path) (Path.parts path).dropLast
      if fs.isDirAt parent then return (parent, some last) else throw .notDirectory

/-! ## Files and directories -/

/-- Whether a path names a directory. -/
def isDir (fs : FileSystem) (path : Text) : Bool :=
  match fs.resolve path with
  | .ok loc => fs.isDirAt loc
  | .error _ => false

/-- The content of the file that a path names. -/
def readFile (fs : FileSystem) (path : Text) : Except OsError (Array UInt8) := do
  match fs.node? (← fs.resolve path) with
  | some (.file content) => return content
  | some .directory => throw .isDirectory
  | none => throw .notFound

/-- The file system in which the file that a path names has this content. The file is made if
its directory exists. -/
def writeFile (fs : FileSystem) (path : Text) (content : Array UInt8) :
    Except OsError FileSystem := do
  match ← fs.resolveParent path with
  | (_, none) => throw .isDirectory
  | (dir, some name) =>
      if name = Path.dot ∨ name = Path.dotDot ∨ Path.endsInSlash path then throw .isDirectory
      else if maxName < name.byteSize then throw .nameTooLong
      else if fs.isDirAt (dir ++ [name]) then throw .isDirectory
      else return fs.set (dir ++ [name]) (.file content)

/-- The file system with a new directory, whose parent has to exist. -/
def makeDir (fs : FileSystem) (path : Text) : Except OsError FileSystem := do
  match ← fs.resolveParent path with
  | (_, none) => throw .alreadyExists
  | (dir, some name) =>
      if name = Path.dot ∨ name = Path.dotDot then throw .alreadyExists
      else if maxName < name.byteSize then throw .nameTooLong
      else if (fs.node? (dir ++ [name])).isSome then throw .alreadyExists
      else return fs.set (dir ++ [name]) .directory

/-! ## Contents -/

/-- The file system with a directory at every location on the way to `loc`, itself included. -/
def withDirs (fs : FileSystem) (loc : Location) : FileSystem :=
  ((List.range (loc.length + 1)).map loc.take).foldl
    (fun fs l => if (fs.node? l).isSome then fs else fs.set l .directory) fs

/-- The file system with these files in a working directory. A path without content is that of
a directory. -/
def ofFiles (cwd : Location) (files : List (Text × Option (Array UInt8))) : FileSystem :=
  files.foldl (fun fs (path, content?) =>
      let loc := cwd ++ Path.parts path
      match content? with
      | some content => (fs.withDirs loc.dropLast).set loc (.file content)
      | none => fs.withDirs loc)
    (withDirs ⟨[], cwd⟩ cwd)

/-- The nodes of a file system that are new or that differ from what was there before. -/
def changes (before after : FileSystem) : List (Location × Node) :=
  after.nodes.filter fun (loc, node) => before.node? loc != some node

end FileSystem

end MightyAsm
