import MightyAsm.Assemble
import MightyAsm.Cli.Command
import MightyAsm.Cli.Report
import MightyAsm.Cli.Script
import MightyAsm.Environment

/-!
# Running the command line

Every command has a script. Assembling reads the source, assembles it and only then makes the
build directory, if the output goes there, and writes the ROM image. Checking does the same
without writing anything.

* `run`: the outcome of a command line on a file system, and the file system after it.
-/

namespace MightyAsm.Cli

/-- The exit status of a run that fails with a message. -/
def failureStatus : Nat := 1

/-- The exit status of a run with arguments that ask for nothing sensible. -/
def usageStatus : Nat := 2

/-- The exit status of a run that is given up because of an inner inconsistency. -/
def abortStatus : Nat := 101

namespace Script

/-- Ends a run without an error. -/
def succeed : Script :=
  .exit 0 none

/-- Ends a run with an error. -/
def fail (message : String) : Script :=
  .exit failureStatus (some message)

/-- Prints several lines. -/
def printAll (lines : List String) (next : Script) : Script :=
  lines.foldr .print next

/-- Reads a source file, which has to be a text in UTF-8. -/
def readSource (name : Text) (next : Text → Script) : Script :=
  .readFile name fun
    | .error e => fail (failure e.message)
    | .ok content =>
        match String.fromUTF8? ⟨content⟩ with
        | some src => next src.toList
        | none => fail (failure "stream did not contain valid UTF-8")
where
  /-- The message for a source that cannot be read. -/
  failure (reason : String) : String := "Failed to read " ++ String.ofList name ++ ": " ++ reason

/-- Assembles a source, and goes on with the program and its ROM image. -/
def build (src : Text) (next : Program → Array UInt8 → Script) : Script :=
  match Program.ofSource src with
  | .error d => fail d.message
  | .ok p =>
      match p.rom with
      | .ok rom => next p rom
      | .error (.fault d) => fail d.message
      | .error _ => .exit abortStatus none

/-- Goes on with the path of the output: the given one, or a file in the build directory, which
is made if it does not exist. -/
def chooseOut (buildDir name : Text) (out : Option Text) (next : Text → Script) : Script :=
  match out with
  | some out => next out
  | none =>
      makeDirs buildDir fun
        | .error e => fail e.message
        | .ok _ =>
            match Path.stem? name with
            | none => fail (String.ofList name ++ " has no file name")
            | some stem => next (Path.join buildDir (stem ++ ['.', 'b', 'i', 'n']))

/-- Assembles a file into a ROM image. -/
def assemble (buildDir name : Text) (out : Option Text) : Script :=
  .print (fileLine "Assembling" name) <|
  readSource name fun src =>
  build src fun _ rom =>
  .print (finishedLine rom.size) <|
  chooseOut buildDir name out fun out =>
  .writeFile out rom fun
    | .error e => fail e.message
    | .ok _ => .print (fileLine "Saved" out) succeed

/-- Checks a file, and prints its symbols if they are wanted. -/
def check (name : Text) (symbols : Bool) : Script :=
  .print (fileLine "Checking" name) <|
  readSource name fun src =>
  build src fun p rom =>
  printAll (if symbols then symbolLines p.symbols else []) <|
  .print (successLine rom.size) succeed

end Script

/-- The script of a command. -/
def Command.script (buildDir : Text) : Command → Script
  | .welcome => Script.printAll welcomeLines .succeed
  | .version => .print versionLine .succeed
  | .help => Script.printAll helpLines .succeed
  | .assemble name out => Script.assemble buildDir name out
  | .check name symbols => Script.check name symbols

/-- The script of a command line, given the value of the environment variable. -/
def script (args : List Text) (buildVar : Option ByteArray) : Script :=
  match Command.ofArgs? args with
  | some command => command.script (Environment.buildDirOf buildVar)
  | none => .exit usageStatus none

/-- The outcome of a command line on a file system, and the file system that it leaves. -/
def run (args : List Text) (buildVar : Option ByteArray) (fs : FileSystem) :
    Outcome × FileSystem :=
  (script args buildVar).runOn fs

end MightyAsm.Cli
