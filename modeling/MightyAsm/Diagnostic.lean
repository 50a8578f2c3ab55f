import MightyAsm.InstructionSet
import MightyAsm.Source.Token

/-!
# Diagnostics

A program that cannot be assembled is refused with one diagnostic: what is wrong, on which
line, and which bytes of the source are to blame. The wording of all messages is here.
-/

namespace MightyAsm

/-- What is wrong with a program. -/
inductive Fault where
  /-- A constant whose name was defined before, on line `first`. -/
  | duplicateSymbol (name : Text) (first : Nat)
  /-- A label whose name was defined before, on line `first`. -/
  | duplicateLabel (name : Text) (first : Nat)
  /-- A symbol that is not defined where it is used. -/
  | unknownSymbol (name : Text)
  /-- An instruction without operands. -/
  | missingOperand (mnemonic : Text)
  /-- An operand, or a name to be defined, that has not the form it needs. -/
  | malformedOperand (token : Text)
  /-- A mnemonic that the machine does not have in this mode. -/
  | unsupportedMode (mnemonic : Text) (mode : Mode)
  /-- An instruction with more than two operands. -/
  | tooManyOperands (mnemonic : Text)
  /-- A branch whose distance is not a signed byte. -/
  | branchOutOfRange (target : Text) (offset : Int)
  /-- A label whose address is not a byte. -/
  | labelOutOfRange (name : Text) (addr : Nat)
deriving DecidableEq, Repr

namespace Fault

/-- The text of a fault, without its line. -/
def message : Fault → String
  | .duplicateSymbol name _ => "duplicate symbol '" ++ String.ofList name ++ "'"
  | .duplicateLabel name _ => "duplicate label '" ++ String.ofList name ++ "'"
  | .unknownSymbol name => "unknown symbol '" ++ String.ofList name ++ "'"
  | .missingOperand mnemonic => "missing operand for " ++ String.ofList mnemonic
  | .malformedOperand token => "malformed operand '" ++ String.ofList token ++ "'"
  | .unsupportedMode mnemonic mode =>
      String.ofList mnemonic ++ " does not support " ++ mode.name ++ " addressing"
  | .tooManyOperands mnemonic => "too many operands for " ++ String.ofList mnemonic
  | .branchOutOfRange _ offset => "branch target too far: " ++ toString offset
  | .labelOutOfRange name addr =>
      "label '" ++ String.ofList name ++ "' at address " ++ toString addr ++
        " does not fit in 8 bits"

/-- The code that identifies the kind of a fault. -/
def code : Fault → String
  | .duplicateSymbol .. => "asm::duplicate_symbol"
  | .duplicateLabel .. => "asm::duplicate_label"
  | .unknownSymbol .. => "asm::unknown_symbol"
  | .missingOperand .. => "asm::missing_operand"
  | .malformedOperand .. => "asm::malformed_operand"
  | .unsupportedMode .. => "asm::unsupported_mode"
  | .tooManyOperands .. => "asm::too_many_operands"
  | .branchOutOfRange .. => "asm::branch_range"
  | .labelOutOfRange .. => "asm::label_out_of_range"

/-- The advice on how to mend a fault. -/
def help : Fault → String
  | .duplicateSymbol .. => "labels and constants share one namespace, rename one of them"
  | .duplicateLabel .. => "prefix labels are only allowed once per file"
  | .unknownSymbol .. => "only branch targets may be defined after they are used"
  | .missingOperand .. => "check the operands for this instruction"
  | .malformedOperand .. =>
      "operands are registers A-P, immediates like #$3F, addresses like $80, or symbols"
  | .unsupportedMode .. => "check the list of available instructions in the documentation"
  | .tooManyOperands .. => "instructions take at most two operands"
  | .branchOutOfRange .. => "branch offsets must lie between -128 and 127"
  | .labelOutOfRange .. => "labels can only be defined within the first 256 bytes of the program"

/-- The remark on the bytes that are to blame. -/
def remark : Fault → String
  | .duplicateSymbol _ first => "already defined on line " ++ toString first
  | .duplicateLabel _ first => "already defined on line " ++ toString first
  | .unknownSymbol .. => "not defined"
  | .missingOperand .. => "expects an operand"
  | .malformedOperand .. => "malformed operand"
  | .unsupportedMode .. => "unsupported addressing mode"
  | .tooManyOperands .. => "unexpected operand"
  | .branchOutOfRange _ offset => "offset " ++ toString offset ++ " out of range"
  | .labelOutOfRange .. => "defined past address $FF"

end Fault

/-- Why a program is refused: a fault, the number of its line and the bytes to blame. -/
structure Diagnostic where
  fault : Fault
  line : Nat
  span : Span
deriving DecidableEq, Repr

namespace Diagnostic

/-- The fault of a token. -/
def atToken (fault : Fault) (t : Token) : Diagnostic :=
  ⟨fault, t.line, t.span⟩

/-- An operand, or a name to be defined, has a wrong form. -/
def malformed (t : Token) : Diagnostic :=
  atToken (.malformedOperand t.text) t

/-- A symbol is not defined. -/
def undefined (t : Token) : Diagnostic :=
  atToken (.unknownSymbol t.text) t

/-- The message for a diagnostic. -/
def message (d : Diagnostic) : String :=
  "Line " ++ toString d.line ++ ": " ++ d.fault.message

end Diagnostic

end MightyAsm
