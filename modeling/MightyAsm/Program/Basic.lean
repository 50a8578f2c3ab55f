import MightyAsm.Program.Resolution
import MightyAsm.Source.Line

/-!
# Programs

A program is what a source means before branches are resolved: its statements with their
addresses, its symbols, and its size in bytes. It is read line by line. A label stands for
the address of the next statement; a constant definition takes no space. On a line with
both, the constant is defined before the label.
-/

namespace MightyAsm

/-- A statement of a program: its source line, the address of its opcode byte, its opcode and
its operands. -/
structure Statement where
  line : Nat
  addr : Nat
  opcode : Opcode
  operands : Operands
deriving DecidableEq, Repr

/-- The statements of a program, its symbols and its size in bytes. -/
structure Program where
  stmts : Array Statement := #[]
  symbols : SymbolTable := .empty
  size : Nat := 0
deriving DecidableEq, Repr

/-- What the instruction part of a line is. -/
inductive SourceLine.Body where
  | blank
  | constant (name : Token) (value : UInt8)
  | instruction (i : Instruction)
deriving DecidableEq, Repr

/-- The instruction part of a line. Whatever reads as the definition of a constant is one. -/
def SourceLine.body (l : SourceLine) : SourceLine.Body :=
  match l.instr with
  | none => .blank
  | some t =>
      match ConstDef.read? t.text with
      | some c => .constant ((Fragment.mk c.name t.span.offs).token l.line) c.value
      | none => .instruction (.ofToken t)

namespace Program

/-- The program without lines. -/
def empty : Program :=
  {}

/-- The fault of defining a name again that was defined on line `first`. -/
def duplicate (kind : SymbolKind) (name : Text) (first : Nat) : Fault :=
  match kind with
  | .const => .duplicateSymbol name first
  | .label => .duplicateLabel name first

/-- The program with one symbol more. Its name has to be an identifier that names no register,
and not to be defined yet. -/
def define (p : Program) (name : Token) (value : UInt8) (kind : SymbolKind) :
    Except Diagnostic Program :=
  if isSymbolName name.text then
    match p.symbols.insert ⟨name.text, value, kind, name.line⟩ with
    | .ok symbols => .ok { p with symbols }
    | .error first => .error (.atToken (duplicate kind name.text first.line) name)
  else .error (.malformed name)

/-- The program with a label for the address that comes next, which has to be a byte. -/
def addLabel (p : Program) (label : Token) : Except Diagnostic Program :=
  if p.size < 256 then p.define label (UInt8.ofNat p.size) .label
  else .error (.atToken (.labelOutOfRange label.text p.size) label)

/-- The program with the label of a line, if it has one. -/
def addLabel? (p : Program) : Option Token → Except Diagnostic Program
  | none => .ok p
  | some label => p.addLabel label

/-- The program with one statement more. -/
def addInstruction (p : Program) (line : Nat) (i : Instruction) : Except Diagnostic Program := do
  let (opcode, operands) ← i.resolve p.symbols
  return { p with stmts := p.stmts.push ⟨line, p.size, opcode, operands⟩
                  size := p.size + opcode.size }

/-- The program with one line more. -/
def addLine (p : Program) (l : SourceLine) : Except Diagnostic Program :=
  match l.body with
  | .blank => p.addLabel? l.label
  | .constant name value => do (← p.define name value .const).addLabel? l.label
  | .instruction i => do (← p.addLabel? l.label).addInstruction l.line i

/-- The program with more lines, up to the first that is at fault. -/
def addLines (p : Program) (lines : List SourceLine) : Except Diagnostic Program :=
  lines.foldlM addLine p

/-- The program that a source means. -/
def ofSource (src : Text) : Except Diagnostic Program :=
  empty.addLines (sourceLines src)

end Program

end MightyAsm
