import MightyAsm.Source.Token

/-!
# Source lines

A line of a source consists of an optional label, ended by a colon, an optional instruction
part and an optional comment that begins with a semicolon. Lines end in a line feed; one
carriage return before it is not part of the line.

`sourceLines` lists the lines of a source that have a label or an instruction part. The
lines that are left out still count, so every line keeps its number and its place.
-/

namespace MightyAsm

/-- A line without its comment: its number, its label and its instruction part. -/
structure SourceLine where
  line : Nat
  label : Option Token
  instr : Option Token
deriving DecidableEq, Repr, Inhabited

namespace SourceLine

/-- The parts of line number `line`. The comment ends what is read of the line, and the first
colon before it ends the label. -/
def ofFragment (line : Nat) (f : Fragment) : SourceLine :=
  let code := f.takeWhile (· != ';')
  match code.cut? ':' with
  | some (label, instr) => ⟨line, label.trimmedToken? line, instr.trimmedToken? line⟩
  | none => ⟨line, none, code.trimmedToken? line⟩

/-- A line with neither a label nor an instruction part. -/
def isBlankLine (l : SourceLine) : Bool :=
  l.label.isNone && l.instr.isNone

end SourceLine

/-- All lines of a source, blank ones included, numbered from 1. -/
def allLines (src : Text) : List SourceLine :=
  (((Fragment.mk src 0).splitOn '\n').zipIdx 1).map fun (f, line) =>
    SourceLine.ofFragment line (f.dropLastChar '\r')

/-- The lines of a source that have a label or an instruction part. -/
def sourceLines (src : Text) : List SourceLine :=
  (allLines src).filter fun l => !l.isBlankLine

end MightyAsm
