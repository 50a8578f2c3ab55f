import MightyAsm.Text.Hex
import MightyAsm.Text.Identifier

/-!
# Constant definitions

A constant is defined by its name, one of the words `CONST` and `EQU`, and its value as a
dollar sign with one or two hexadecimal digits. Blanks stand between the three parts, and
nothing stands before or after them.
-/

namespace MightyAsm

/-- The definition of a constant: its name and its value. -/
structure ConstDef where
  name : Text
  value : UInt8
deriving DecidableEq, Repr, Inhabited

namespace ConstDef

/-- The capital letter that a character of a keyword stands for. The long s is a letter S. -/
def keywordLetter (c : Char) : Char :=
  if c = 'ſ' then 'S' else c.toUpper

/-- The words that make a definition, in any letter case. -/
def isKeyword (t : Text) : Bool :=
  [['C', 'O', 'N', 'S', 'T'], ['E', 'Q', 'U']].contains (t.map keywordLetter)

/-- A text after the blanks that it has to begin with. -/
def afterBlanks? (t : Text) : Option Text :=
  match t with
  | [] => none
  | c :: _ => if isBlank c then some t.trimStart else none

/-- The byte written as a dollar sign and one or two hexadecimal digits. -/
def dollarByte? : Text → Option UInt8
  | '$' :: digits => hexByte? digits
  | _ => none

/-- The constant that a text defines, if it is a definition. -/
def read? (t : Text) : Option ConstDef := do
  let name := t.takeWhile isIdentChar
  guard (isIdentifier name)
  let rest ← afterBlanks? (t.dropWhile isIdentChar)
  guard (isKeyword (rest.takeWhile fun c => !isBlank c))
  let value ← afterBlanks? (rest.dropWhile fun c => !isBlank c)
  return ⟨name, ← dollarByte? value⟩

end ConstDef

end MightyAsm
