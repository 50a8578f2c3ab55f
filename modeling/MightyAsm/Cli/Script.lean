import MightyAsm.Files.FileSystem

/-!
# Scripts

A script says what a run of the command line does: which lines it prints, which files it
reads and writes, and how it goes on with the results, up to its exit status. It is the same
script for the files of a real system and for a model of a file system.

* `Script.runOn`: the outcome of a script on a file system, and the file system after it;
* `Script.makeDirs`: makes a directory and those above it that do not exist.
-/

namespace MightyAsm.Cli

/-- What a run does, step by step. -/
inductive Script where
  /-- End with an exit status, and with the message of the error if there is one. -/
  | exit (status : Nat) (message : Option String)
  /-- Print a line. -/
  | print (line : String) (next : Script)
  /-- Read the file that a path names. -/
  | readFile (path : Text) (next : Except OsError (Array UInt8) → Script)
  /-- Write the file that a path names. -/
  | writeFile (path : Text) (content : Array UInt8) (next : Except OsError Unit → Script)
  /-- Make one directory. -/
  | makeDir (path : Text) (next : Except OsError Unit → Script)
  /-- Find out whether a path names a directory. -/
  | isDir (path : Text) (next : Bool → Script)

/-- How a run has ended: its exit status, what it has printed and the message of its error. -/
structure Outcome where
  status : Nat
  stdout : String
  message : Option String
deriving DecidableEq, Repr

namespace Script

/-- The outcome of a script that goes on after `stdout` has been printed, and the file system
that it leaves. -/
def runFrom (stdout : String) (fs : FileSystem) : Script → Outcome × FileSystem
  | .exit status message => (⟨status, stdout, message⟩, fs)
  | .print line next => next.runFrom (stdout ++ line ++ "\n") fs
  | .readFile path next => (next (fs.readFile path)).runFrom stdout fs
  | .writeFile path content next =>
      match fs.writeFile path content with
      | .ok fs' => (next (.ok ())).runFrom stdout fs'
      | .error e => (next (.error e)).runFrom stdout fs
  | .makeDir path next =>
      match fs.makeDir path with
      | .ok fs' => (next (.ok ())).runFrom stdout fs'
      | .error e => (next (.error e)).runFrom stdout fs
  | .isDir path next => (next (fs.isDir path)).runFrom stdout fs

/-- The outcome of a script on a file system, and the file system that it leaves. -/
def runOn (fs : FileSystem) (script : Script) : Outcome × FileSystem :=
  script.runFrom "" fs

/-- Goes on as after a success if a path names a directory, and as after the error if not. -/
def acceptDir (path : Text) (e : OsError) (next : Except OsError Unit → Script) : Script :=
  .isDir path fun found => next (if found then .ok () else .error e)

/-- Makes the first of these directories. If it cannot be made because another does not exist,
those after it are made before. -/
def makeFirstDir (next : Except OsError Unit → Script) : List Text → Script
  | [] => next (.ok ())
  | path :: above =>
      .makeDir path fun
        | .ok _ => next (.ok ())
        | .error .notFound =>
            makeFirstDir (fun
              | .error e => next (.error e)
              | .ok _ => .makeDir path fun
                  | .ok _ => next (.ok ())
                  | .error e => acceptDir path e next) above
        | .error e => acceptDir path e next

/-- Makes a directory, and before it those above it that do not exist. -/
def makeDirs (path : Text) (next : Except OsError Unit → Script) : Script :=
  makeFirstDir next (Path.ancestors path)

end Script

end MightyAsm.Cli
