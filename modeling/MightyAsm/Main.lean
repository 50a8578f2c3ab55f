import MightyAsm.Cli.Run

/-!
# The command line

Performs the script of a command line on the files of the system.
-/

namespace MightyAsm.Cli

/-- The error of the system that an input or output error reports. Its number may be negated. -/
def osErrorOf : IO.Error → OsError
  | .noFileOrDirectory _ code text | .interrupted _ code text
  | .alreadyExists _ code text | .invalidArgument _ code text | .permissionDenied _ code text
  | .resourceExhausted _ code text | .inappropriateType _ code text | .noSuchThing _ code text
  | .otherError code text | .resourceBusy code text | .resourceVanished code text
  | .unsupportedOperation code text | .hardwareFault code text
  | .unsatisfiedConstraints code text | .illegalOperation code text | .protocolError code text
  | .timeExpired code text => ofCode (min code.toNat (-code).toNat) text
  | .unexpectedEof => .other 0 "unexpected end of file"
  | .userError text => .other 0 text
where
  /-- The error with a number. -/
  ofCode (code : Nat) (text : String) : OsError :=
    ([.notFound, .alreadyExists, .notDirectory, .isDirectory, .nameTooLong].find?
      (OsError.code · == code)).getD (.other code text)

/-- The result of an action on files, or why it failed. -/
def attempt {α : Type} (action : IO α) : IO (Except OsError α) := do
  try
    return .ok (← action)
  catch e => return .error (osErrorOf e)

/-- Performs a script and returns its exit status. -/
def perform : Script → IO UInt32
  | .exit status message => do
      if let some message := message then IO.eprintln ("Error: " ++ message)
      if status = usageStatus then helpLines.forM IO.eprintln
      return UInt32.ofNat status
  | .print line next => do
      IO.println line
      perform next
  | .readFile path next => do
      let content ← attempt (IO.FS.readBinFile (String.ofList path))
      perform (next (content.map (·.data)))
  | .writeFile path content next => do
      perform (next (← attempt (IO.FS.writeBinFile (String.ofList path) ⟨content⟩)))
  | .makeDir path next => do
      perform (next (← attempt (IO.FS.createDir (String.ofList path))))
  | .isDir path next => do
      perform (next (← ((← IO.currentDir) / String.ofList path).isDir))

end MightyAsm.Cli

/-- Runs the assembler on the arguments of the command line. -/
def main (args : List String) : IO UInt32 := do
  let dir ← IO.getEnv MightyAsm.Environment.buildDirVariable
  MightyAsm.Cli.perform (MightyAsm.Cli.script (args.map String.toList) (dir.map String.toUTF8))
