import MightyAsm.SymbolTable
import MightyAsm.Text.Hex

/-!
# What the command line prints

Most lines are a status word, which ends in column 12, and a text after it.
-/

namespace MightyAsm.Cli

/-- The column in which a status word ends. -/
def statusWidth : Nat := 12

/-- A line with a status word. -/
def statusLine (word text : String) : String :=
  String.ofList (List.replicate (statusWidth - word.length) ' ') ++ word ++ " " ++ text

/-- A line on a file. -/
def fileLine (word : String) (path : Text) : String :=
  statusLine word ("target " ++ String.ofList path)

/-- The line on a symbol. -/
def symbolLine (s : Symbol) : String :=
  statusLine s.kind.name (String.ofList s.name ++ " = $" ++ String.ofList (hexOfByte s.value) ++
    " (line " ++ toString s.line ++ ")")

/-- The lines on all symbols of a table. -/
def symbolLines (t : SymbolTable) : List String :=
  if t.isEmpty then [statusLine "Symbols" "none defined"] else t.symbols.map symbolLine

/-- The line on the size of a finished ROM image. -/
def finishedLine (size : Nat) : String :=
  statusLine "Finished" (toString size ++ " bytes")

/-- The line on a file without faults. -/
def successLine (size : Nat) : String :=
  statusLine "Success" ("no errors found! (" ++ toString size ++ " bytes)")

/-- The version of the assembler. -/
def version : String := "0.1.0"

/-- What is printed for the version. -/
def versionLine : String :=
  "mcasm " ++ version

/-- What is printed if there are no arguments. -/
def welcomeLines : List String :=
  ["", "~ mcasm v" ++ version ++ " ~", "",
    "Welcome to mcasm, the assembler for the 8-bit MightyController.",
    "Please use `-h` or `--help` to access the usage instructions.", ""]

/-- What is printed on how to use the command line. -/
def helpLines : List String :=
  ["mcasm is a two-pass assembler for the 8-bit MightyController", "",
    "Usage: mcasm [PATH]",
    "       mcasm assemble <NAME> [-o|--out <OUT>]",
    "       mcasm check <NAME> [-s|--symbols]", "",
    "Options:",
    "  -h, --help     Print help",
    "  -V, --version  Print version"]

end MightyAsm.Cli
