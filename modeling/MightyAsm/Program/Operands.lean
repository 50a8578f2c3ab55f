import MightyAsm.InstructionSet
import MightyAsm.Register
import MightyAsm.Source.Token

/-!
# Operands of a statement

The operands of a statement in the form in which they are encoded. Only the target of a
branch is still a name: it may be defined further down, so that its value is not known
before the whole source has been read.
-/

namespace MightyAsm

/-- Where a branch goes: to its own address, or to a symbol. -/
inductive Target where
  | here
  | symbol (name : Token)
deriving DecidableEq, Repr

/-- The operands of a statement, by what is encoded. -/
inductive Operands where
  | none
  | reg (r : Register)
  | regPair (first second : Register)
  | regImm (r : Register) (value : UInt8)
  | regAddr (r : Register) (addr : UInt8)
  | addr (addr : UInt8)
  | branch (target : Target)
deriving DecidableEq, Repr

namespace Operands

/-- The number of bytes that operands take after the opcode byte. -/
def size : Operands → Nat
  | .none => 0
  | .reg _ | .addr _ | .branch _ => 1
  | .regPair .. | .regImm .. | .regAddr .. => 2

/-- The mode that has operands of this shape. -/
def mode : Operands → Mode
  | .none | .reg _ => .implied
  | .regPair .. => .registerPair
  | .regImm .. => .immediate
  | .regAddr .. | .addr _ => .direct
  | .branch _ => .relative

end Operands

end MightyAsm
