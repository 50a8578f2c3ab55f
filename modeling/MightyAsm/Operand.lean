import MightyAsm.Register
import MightyAsm.Source.Constant

/-!
# Operands as written

An operand is a register, an immediate byte such as `#$3F`, an address such as `$80`, the
name of a symbol, or `*` for the address of the instruction itself. The letters that name
registers are never names of symbols.
-/

namespace MightyAsm

/-- An operand as it is written. -/
inductive Operand where
  | reg (r : Register)
  | imm (value : UInt8)
  | addr (value : UInt8)
  | symbol (name : Text)
  | here
deriving DecidableEq, Repr

/-- The identifiers that may name a symbol: those that do not name a register. -/
def isSymbolName (t : Text) : Bool :=
  isIdentifier t && (Register.ofText? t).isNone

namespace Operand

/-- The operand that a text without blanks around it writes, if any. -/
def ofText? (t : Text) : Option Operand :=
  match Register.ofText? t with
  | some r => some (.reg r)
  | none =>
      match t with
      | ['*'] => some .here
      | '#' :: '$' :: digits => (hexByte? digits).map .imm
      | '$' :: digits => (hexByte? digits).map .addr
      | _ => if isIdentifier t then some (.symbol t) else none

end Operand

end MightyAsm
