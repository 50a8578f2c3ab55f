import MightyAsm.Diagnostic
import MightyAsm.Operand
import MightyAsm.Program.Operands
import MightyAsm.Source.Instruction
import MightyAsm.SymbolTable

/-!
# Resolving an instruction

An instruction as written is resolved against the symbols that are known so far: its
operands are read, their shape gives the addressing mode, and mnemonic and mode give the
opcode. What is wrong first is reported, in this order: the number of operands, their form,
the symbols they name, the mode.
-/

namespace MightyAsm

/-- The value of the symbol that a token names. -/
def SymbolTable.resolve (symbols : SymbolTable) (t : Token) : Except Diagnostic UInt8 :=
  match symbols.value? t.text with
  | some value => .ok value
  | none => .error (.undefined t)

namespace Operands

/-- A single operand: a register, the target of a branch, or a symbol for an address. -/
def ofOne (symbols : SymbolTable) (mnemonic : Text) (op : Token) : Except Diagnostic Operands :=
  match Operand.ofText? op.text with
  | some (.reg r) => .ok (.reg r)
  | some (.symbol _) =>
      if isBranch mnemonic then .ok (.branch (.symbol op)) else .addr <$> symbols.resolve op
  | some .here => if isBranch mnemonic then .ok (.branch .here) else .error (.malformed op)
  | _ => .error (.malformed op)

/-- Two operands: a register, and then a register, a byte or an address. -/
def ofTwo (symbols : SymbolTable) (first second : Token) : Except Diagnostic Operands :=
  match Operand.ofText? first.text with
  | some (.reg r) =>
      match Operand.ofText? second.text with
      | some (.reg s) => .ok (.regPair r s)
      | some (.imm value) => .ok (.regImm r value)
      | some (.addr a) => .ok (.regAddr r a)
      | some (.symbol _) => .regAddr r <$> symbols.resolve second
      | _ => .error (.malformed second)
  | _ => .error (.malformed first)

end Operands

namespace Instruction

/-- The mnemonic of an instruction in capital letters. -/
def key (i : Instruction) : Text :=
  i.mnemonic.text.upper

/-- The opcode for operands of this shape, which has to have room for just their bytes. -/
def fit (i : Instruction) (operands : Operands) : Except Diagnostic (Opcode × Operands) :=
  match opcode? i.key operands.mode with
  | some op => if op.operandSize = operands.size then .ok (op, operands) else .error unsupported
  | none => .error unsupported
where
  /-- The machine does not have this mnemonic in this mode. -/
  unsupported : Diagnostic := .atToken (.unsupportedMode i.key operands.mode) i.text

/-- The opcode of an instruction without operands. -/
def fitNone (i : Instruction) : Except Diagnostic (Opcode × Operands) :=
  match opcode? i.key .implied with
  | some op => if op.operandSize = 0 then .ok (op, .none) else .error missing
  | none => .error missing
where
  /-- The instruction lacks its operands. -/
  missing : Diagnostic := .atToken (.missingOperand i.key) i.text

/-- The opcode and the operands of an instruction, given the symbols known so far. -/
def resolve (symbols : SymbolTable) (i : Instruction) : Except Diagnostic (Opcode × Operands) :=
  match i.operands with
  | [] => i.fitNone
  | [op] => do i.fit (← Operands.ofOne symbols i.key op)
  | [first, second] => do i.fit (← Operands.ofTwo symbols first second)
  | _ :: _ :: extra :: _ => .error (.atToken (.tooManyOperands i.key) extra)

end Instruction

end MightyAsm
