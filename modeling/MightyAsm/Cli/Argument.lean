import MightyAsm.Text.Basic

/-!
# Command-line arguments

An argument is the mark `--`, after which nothing is an option any more, a long option such as
`--out` or `--out=FILE`, a group of short options such as `-s` or `-oFILE`, or a plain word.
A single dash is a plain word.
-/

namespace MightyAsm.Cli

/-- An argument by its form. -/
inductive Argument where
  | endOfOptions
  | long (name : Text) (value : Option Text)
  | short (letters : Text)
  | word (text : Text)
deriving DecidableEq, Repr

namespace Argument

/-- The form of an argument. A long option with an equals sign carries its value. -/
def ofText : Text → Argument
  | ['-', '-'] => .endOfOptions
  | '-' :: '-' :: option =>
      match option.dropWhile (· != '=') with
      | [] => .long option none
      | _ :: value => .long (option.takeWhile (· != '=')) (some value)
  | '-' :: letter :: letters => .short (letter :: letters)
  | text => .word text

/-- Whether an argument can be the value of the option before it. -/
def isValue (arg : Text) : Bool :=
  match ofText arg with
  | .word text => !text.isEmpty
  | _ => false

end Argument

end MightyAsm.Cli
