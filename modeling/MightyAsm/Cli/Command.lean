import MightyAsm.Cli.Argument

/-!
# Commands

What the command line can be asked for. The arguments are read from left to right; options
may stand before and after the name of a file. Asking for the version or for help takes
effect at once. Arguments that ask for nothing sensible are a usage error.

* `Command.ofArgs?`: the command that a list of arguments asks for, if it is not a usage
  error.
-/

namespace MightyAsm.Cli

/-- What the command line is asked to do. -/
inductive Command where
  /-- Greet whoever gives no arguments. -/
  | welcome
  /-- Print the version. -/
  | version
  /-- Print how to use the command line. -/
  | help
  /-- Assemble a file, into a given file or into the build directory. -/
  | assemble (name : Text) (out : Option Text)
  /-- Check a file and perhaps print its symbols. -/
  | check (name : Text) (symbols : Bool)
deriving DecidableEq, Repr

/-- The words that choose what to do with a file. -/
inductive Subcommand where
  | assemble
  | check
  | help
deriving DecidableEq, Repr

/-- The subcommand that a word names. -/
def Subcommand.ofText? (word : Text) : Option Subcommand :=
  match String.ofList word with
  | "assemble" => some .assemble
  | "check" => some .check
  | "help" => some .help
  | _ => none

namespace Command

/-- A name that is given once, and not as the empty text. -/
def setName? (name : Option Text) (word : Text) : Option Text :=
  if name.isSome || word.isEmpty then none else some word

/-- The name among arguments none of which is an option. -/
def onlyName? (name : Option Text) : List Text → Option (Option Text)
  | [] => some name
  | word :: rest => do onlyName? (← setName? name word) rest

/-- Help on a list of nested subcommands. Only the outermost have any. -/
def ofHelpArgs? : List Text → Option Command
  | [] => some .help
  | [word] => (Subcommand.ofText? word).map fun _ => .help
  | _ => none

/-- The command for assembling, given the name and the output file read so far. -/
def ofAssembleArgs? (name out : Option Text) : List Text → Option Command
  | [] => name.map (.assemble · out)
  | arg :: rest =>
      match Argument.ofText arg with
      | .endOfOptions => do (← onlyName? name rest).map (.assemble · out)
      | .word word => do ofAssembleArgs? (← setName? name word) out rest
      | .long option value =>
          match String.ofList option, value with
          | "help", none => some .help
          | "out", some file => do ofAssembleArgs? name (← setName? out file) rest
          | "out", none =>
              match rest with
              | file :: rest' =>
                  if Argument.isValue file then do ofAssembleArgs? name (← setName? out file) rest'
                  else none
              | [] => none
          | _, _ => none
      | .short letters =>
          match letters with
          | 'h' :: _ => some .help
          | ['o'] =>
              match rest with
              | file :: rest' =>
                  if Argument.isValue file then do ofAssembleArgs? name (← setName? out file) rest'
                  else none
              | [] => none
          | 'o' :: '=' :: file => do ofAssembleArgs? name (← setName? out file) rest
          | 'o' :: file => do ofAssembleArgs? name (← setName? out file) rest
          | _ => none

/-- What a group of short options of a check asks for: help, or symbols as well. -/
inductive CheckOptions where
  | help
  | symbols (wanted : Bool)
deriving DecidableEq, Repr

/-- The short options of a check, of which `-s` may be given once. -/
def checkLetters? (symbols : Bool) : Text → Option CheckOptions
  | [] => some (.symbols symbols)
  | 'h' :: _ => some .help
  | 's' :: letters => if symbols then none else checkLetters? true letters
  | _ => none

/-- The command for checking, given the name and the options read so far. -/
def ofCheckArgs? (name : Option Text) (symbols : Bool) : List Text → Option Command
  | [] => name.map (.check · symbols)
  | arg :: rest =>
      match Argument.ofText arg with
      | .endOfOptions => do (← onlyName? name rest).map (.check · symbols)
      | .word word => do ofCheckArgs? (← setName? name word) symbols rest
      | .long option value =>
          match String.ofList option, value with
          | "help", none => some .help
          | "symbols", none => if symbols then none else ofCheckArgs? name true rest
          | _, _ => none
      | .short letters =>
          match checkLetters? symbols letters with
          | some .help => some .help
          | some (.symbols wanted) => ofCheckArgs? name wanted rest
          | none => none

/-- The command for a file that is named without a subcommand. -/
def ofPath : Option Text → Command
  | none => .welcome
  | some path => .assemble path none

/-- The command that arguments ask for, given the path read so far. A subcommand may still
follow a path, which is then of no account. -/
def ofTopArgs? (path : Option Text) : List Text → Option Command
  | [] => some (ofPath path)
  | arg :: rest =>
      match Subcommand.ofText? arg with
      | some .assemble => ofAssembleArgs? none none rest
      | some .check => ofCheckArgs? none false rest
      | some .help => ofHelpArgs? rest
      | none =>
          match Argument.ofText arg with
          | .endOfOptions => (onlyName? path rest).map ofPath
          | .word word => do ofTopArgs? (← setName? path word) rest
          | .long option value =>
              match String.ofList option, value with
              | "version", none => some .version
              | "help", none => some .help
              | _, _ => none
          | .short letters =>
              match letters with
              | 'V' :: _ => some .version
              | 'h' :: _ => some .help
              | _ => none

/-- The command that a list of arguments asks for, if they are not a usage error. -/
def ofArgs? (args : List Text) : Option Command :=
  ofTopArgs? none args

end Command

end MightyAsm.Cli
