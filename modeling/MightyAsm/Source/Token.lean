import MightyAsm.Source.Fragment

/-!
# Tokens

A token is a word of a line together with the place where it stands.
-/

namespace MightyAsm

/-- A word of a source: its text, the bytes it covers and the number of its line. -/
structure Token where
  text : Text
  span : Span
  line : Nat
deriving DecidableEq, Repr, Inhabited

/-- The token that a fragment of line `line` is. -/
def Fragment.token (f : Fragment) (line : Nat) : Token :=
  ⟨f.text, f.span, line⟩

/-- The token of a fragment without the blanks around it, unless nothing else is there. -/
def Fragment.trimmedToken? (f : Fragment) (line : Nat) : Option Token :=
  match f.trim.text with
  | [] => none
  | _ => some (f.trim.token line)

/-- The fragment that a token covers. -/
def Token.fragment (t : Token) : Fragment :=
  ⟨t.text, t.span.offs⟩

@[simp] theorem Fragment.fragment_token (f : Fragment) (line : Nat) :
    (f.token line).fragment = f := rfl

end MightyAsm
