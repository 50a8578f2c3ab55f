import MightyAsm.Source.Token

/-!
# Instructions as written

The instruction part of a line is a mnemonic, ended by the first blank, and operands with
commas between them. Blanks around an operand do not belong to it, and an operand may be
empty.
-/

namespace MightyAsm

/-- An instruction as it is written: the whole text, the mnemonic and the operands. -/
structure Instruction where
  text : Token
  mnemonic : Token
  operands : List Token
deriving DecidableEq, Repr, Inhabited

namespace Instruction

/-- The mnemonic and the operands of an instruction part. Without anything but blanks after
the mnemonic there are no operands. -/
def ofToken (t : Token) : Instruction :=
  let word := t.fragment.takeWhile fun c => !isBlank c
  let rest := (t.fragment.dropWhile fun c => !isBlank c).trim
  { text := t
    mnemonic := word.token t.line
    operands :=
      match rest.text with
      | [] => []
      | _ => (rest.splitOn ',').map fun op => op.trim.token t.line }

end Instruction

end MightyAsm
